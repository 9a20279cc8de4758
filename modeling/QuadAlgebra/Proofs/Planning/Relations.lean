import Mathlib.Logic.Relation
import QuadAlgebra.Syntax.Basic

/-!
# The relations of paths

A path over some triples relates terms to each other, by recursion on the path: predicates, their
converses, compositions, unions, negated sets, powers and transitive closures. The path of length
zero relates every node, that is every subject and every object, to itself. No path relates anything
but nodes (`Path.isNode_of_relates`).
-/

namespace QuadAlgebra

open Relation (Comp TransGen)

/-- A relation some times in a row. -/
def Steps (R : Term → Term → Prop) : Nat → Term → Term → Prop
  | 0 => Eq
  | n + 1 => Comp R (Steps R n)

variable (triples : List Triple)

/-- Whether a term is the subject or the object of a triple. -/
def IsNode (a : Term) : Prop := ∃ t ∈ triples, t.subject = a ∨ t.object = a

/-- The pairs of length zero. -/
def SameNode (a b : Term) : Prop := a = b ∧ IsNode triples a

/-- A relation some times in a row, from a node on. -/
def Power (R : Term → Term → Prop) (n : Nat) (a b : Term) : Prop := IsNode triples a ∧ Steps R n a b

/-- The pairs of triples whose predicate is none of the given ones. -/
def Avoids (excluded : List Term) (a b : Term) : Prop :=
  ∃ t ∈ triples, t.subject = a ∧ t.object = b ∧ t.predicate ∉ excluded

/-- The pairs of a negated set: those that avoid its forward members, unless it has backward members
only, and the converses of those that avoid its backward members, if it has any. -/
def AvoidsAll (members : List Excluded) (a b : Term) : Prop :=
  let forward := (members.filter (!·.inverse)).map Excluded.iri
  let backward := (members.filter (·.inverse)).map Excluded.iri
  ((forward ≠ [] ∨ backward = []) ∧ Avoids triples forward a b) ∨
    (backward ≠ [] ∧ Avoids triples backward b a)

/-- The pairs of terms that a path connects. -/
def Path.Relates : Path → Term → Term → Prop
  | .predicate iri => fun a b => ⟨a, iri, b⟩ ∈ triples
  | .inverse p => fun a b => p.Relates b a
  | .sequence p q => Comp p.Relates q.Relates
  | .alternative p q => fun a b => p.Relates a b ∨ q.Relates a b
  | .negatedSet members => AvoidsAll triples members
  | .repetition p min (some max) => fun a b =>
    ∃ n, min ≤ n ∧ n ≤ max ∧ Power triples p.Relates n a b
  | .repetition p min none =>
    Comp (Power triples p.Relates min) fun a b => SameNode triples a b ∨ TransGen p.Relates a b
  | .oneOrMore p => TransGen p.Relates
  | .zeroOrMore p => fun a b => SameNode triples a b ∨ TransGen p.Relates a b
  | .zeroOrOne p => fun a b => SameNode triples a b ∨ p.Relates a b

variable {triples} {R : Term → Term → Prop} {a b : Term}

/-! ## Nodes -/

/-- A relation between nodes only. -/
def OnNodes (triples : List Triple) (R : Term → Term → Prop) : Prop :=
  ∀ a b, R a b → IsNode triples a ∧ IsNode triples b

theorem onNodes_sameNode : OnNodes triples (SameNode triples) := by
  rintro a b ⟨rfl, ha⟩
  exact ⟨ha, ha⟩

theorem onNodes_avoids (excluded : List Term) : OnNodes triples (Avoids triples excluded) := by
  rintro a b ⟨t, ht, rfl, rfl, -⟩
  exact ⟨⟨t, ht, .inl rfl⟩, ⟨t, ht, .inr rfl⟩⟩

namespace OnNodes

variable {S : Term → Term → Prop}

theorem flip (h : OnNodes triples R) : OnNodes triples (flip R) := fun a b hab => (h b a hab).symm

theorem or (h : OnNodes triples R) (h' : OnNodes triples S) :
    OnNodes triples fun a b => R a b ∨ S a b := fun a b hab => hab.elim (h a b) (h' a b)

theorem comp (h : OnNodes triples R) (h' : OnNodes triples S) : OnNodes triples (Comp R S) := by
  rintro a b ⟨c, hac, hcb⟩
  exact ⟨(h a c hac).1, (h' c b hcb).2⟩

theorem transGen (h : OnNodes triples R) : OnNodes triples (TransGen R) := by
  intro a b hab
  obtain ⟨c, hac, -⟩ := Relation.TransGen.head'_iff.1 hab
  obtain ⟨c', -, hcb⟩ := Relation.TransGen.tail'_iff.1 hab
  exact ⟨(h a c hac).1, (h c' b hcb).2⟩

theorem steps (h : OnNodes triples R) (n : Nat) : OnNodes triples (Steps R (n + 1)) := by
  induction n with
  | zero =>
      rintro a b ⟨c, hac, rfl⟩
      exact h a c hac
  | succ n ih => exact h.comp ih

theorem power (h : OnNodes triples R) (n : Nat) : OnNodes triples (Power triples R n) := by
  rintro a b ⟨ha, hab⟩
  cases n with
  | zero => exact ⟨ha, hab ▸ ha⟩
  | succ n => exact h.steps n a b hab

end OnNodes

/-- Paths relate nodes only. -/
theorem Path.isNode_of_relates (p : Path) : OnNodes triples (p.Relates triples) := by
  induction p with
  | predicate iri => exact fun a b h => ⟨⟨_, h, .inl rfl⟩, ⟨_, h, .inr rfl⟩⟩
  | inverse p ih => exact ih.flip
  | sequence p q ihp ihq => exact ihp.comp ihq
  | alternative p q ihp ihq => exact ihp.or ihq
  | negatedSet members =>
      rintro a b (⟨-, h⟩ | ⟨-, h⟩)
      · exact onNodes_avoids _ a b h
      · exact (onNodes_avoids _ b a h).symm
  | repetition p min max ih =>
      cases max with
      | some max =>
          rintro a b ⟨n, -, -, h⟩
          exact ih.power n a b h
      | none => exact (ih.power min).comp (onNodes_sameNode.or ih.transGen)
  | oneOrMore p ih => exact ih.transGen
  | zeroOrMore p ih => exact onNodes_sameNode.or ih.transGen
  | zeroOrOne p ih => exact onNodes_sameNode.or ih

/-! ## Powers -/

theorem power_zero : Power triples R 0 = SameNode triples := by
  funext a b
  exact propext and_comm

/-- A positive power starts at a node by itself. -/
theorem power_of_pos (h : OnNodes triples R) {n : Nat} (hn : 0 < n) :
    Power triples R n = Steps R n := by
  obtain ⟨k, rfl⟩ : ∃ k, n = k + 1 := ⟨n - 1, by omega⟩
  funext a b
  exact propext ⟨And.right, fun hab => ⟨(h.steps k a b hab).1, hab⟩⟩

/-- Powers within bounds, from one on. -/
theorem exists_power_of_pos (h : OnNodes triples R) {min : Nat} (hmin : 0 < min) (max : Nat) :
    (∃ n, min ≤ n ∧ n ≤ max ∧ Power triples R n a b) ↔
      ∃ n, (min ≤ n ∧ n ≤ max) ∧ Steps R n a b := by
  refine exists_congr fun n => ?_
  rw [← and_assoc]
  refine and_congr_right fun hn => ?_
  rw [power_of_pos h (Nat.lt_of_lt_of_le hmin hn.1)]

/-- Powers up to a bound. -/
theorem exists_power_from_zero (h : OnNodes triples R) (max : Nat) :
    (∃ n, 0 ≤ n ∧ n ≤ max ∧ Power triples R n a b) ↔
      SameNode triples a b ∨ ∃ n, (1 ≤ n ∧ n ≤ max) ∧ Steps R n a b := by
  rw [← exists_power_of_pos h Nat.zero_lt_one, ← power_zero (R := R)]
  constructor
  · rintro ⟨n, -, hn, hab⟩
    rcases Nat.eq_zero_or_pos n with rfl | hpos
    · exact .inl hab
    · exact .inr ⟨n, hpos, hn, hab⟩
  · rintro (hab | ⟨n, -, hn, hab⟩)
    · exact ⟨0, Nat.le_refl _, Nat.zero_le _, hab⟩
    · exact ⟨n, Nat.zero_le _, hn, hab⟩

theorem steps_one : Steps R 1 = R := by
  funext a b
  refine propext ⟨?_, fun hab => ⟨b, hab, rfl⟩⟩
  rintro ⟨c, hac, rfl⟩
  exact hac

/-- The last step of a power instead of the first one. -/
theorem comp_steps (n : Nat) : Comp (Steps R n) R = Steps R (n + 1) := by
  induction n with
  | zero =>
      rw [steps_one]
      exact Relation.eq_comp
  | succ n ih => rw [Steps, Relation.comp_assoc, ih, ← Steps]

theorem comp_power_zero {S : Term → Term → Prop} (h : OnNodes triples S) :
    Comp (Power triples R 0) S = S := by
  rw [power_zero]
  funext a b
  refine propext ⟨?_, fun hab => ⟨a, ⟨rfl, (h a b hab).1⟩, hab⟩⟩
  rintro ⟨c, ⟨rfl, -⟩, hcb⟩
  exact hcb

/-- At least so many steps are so many steps and a closure. -/
theorem comp_power_closure (h : OnNodes triples R) (n : Nat) :
    Comp (Power triples R (n + 1)) (fun a b => SameNode triples a b ∨ TransGen R a b) =
      Comp (Steps R n) (TransGen R) := by
  funext a b
  refine propext ⟨?_, ?_⟩
  · rintro ⟨c, ⟨-, hac⟩, hcb⟩
    rw [← comp_steps] at hac
    obtain ⟨c', hac', hc'c⟩ := hac
    refine ⟨c', hac', ?_⟩
    rcases hcb with ⟨rfl, -⟩ | hcb
    · exact .single hc'c
    · exact .head hc'c hcb
  · rintro ⟨c, hac, hcb⟩
    obtain ⟨c', hcc', hc'b⟩ := TransGen.head'_iff.1 hcb
    have hsteps : Steps R (n + 1) a c' := by
      rw [← comp_steps]
      exact ⟨c, hac, hcc'⟩
    have hnodes := h.steps n a c' hsteps
    refine ⟨c', ⟨hnodes.1, hsteps⟩, ?_⟩
    rcases Relation.reflTransGen_iff_eq_or_transGen.1 hc'b with rfl | hc'b
    · exact .inl ⟨rfl, hnodes.2⟩
    · exact .inr hc'b

end QuadAlgebra
