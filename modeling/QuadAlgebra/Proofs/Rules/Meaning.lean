import Mathlib.Data.Finite.Prod
import Mathlib.Data.Set.Finite.Lattice
import Mathlib.Order.Bounds.Defs
import Mathlib.Order.Filter.AtTopBot.Basic
import Mathlib.Order.Filter.Finite
import QuadAlgebra.Planning.Document
import QuadAlgebra.Proofs.Semantics.Scans

/-!
# The meaning of rules

A rule body is read over a set of triples, which need not be finite: `Group.answers` is the set of
its solutions. Bodies are made of triples, paths that are a single predicate, nested groups, unions
and filters without existence patterns here (`Group.isBody`). A set of triples is closed under a
rule program if it contains every triple that a head makes of a solution of its body over the stored
triples together with the set (`RuleProgram.Closed`).

More triples have more solutions (`Group.answers_mono`), and solutions bind variables to terms of
the triples only (`Group.over_of_mem_answers`). So the triples that are derived round by round
come to an end, and what they come to is the least closed set (`RuleProgram.isLeast_of_steady`).
-/

namespace QuadAlgebra

/-! ## Rule bodies -/

mutual

/-- Whether a group is made of the parts that the meaning covers. -/
def Group.isBody : Group → Bool
  | ⟨elements⟩ => elementsBody elements

def elementsBody : List Element → Bool
  | [] => true
  | e :: rest => e.isBody && elementsBody rest

def Element.isBody : Element → Bool
  | .triple _ => true
  | .path p => p.path.predicate?.isSome
  | .group g => g.isBody
  | .union branches => groupsBody branches
  | .filter e => !e.hasExistence
  | _ => false

def groupsBody : List Group → Bool
  | [] => true
  | g :: rest => g.isBody && groupsBody rest

end

mutual

/-- Whether a group matches some triple, be it in a group or a branch inside. -/
def Group.matchesTriple : Group → Bool
  | ⟨elements⟩ => elementsMatch elements

def elementsMatch : List Element → Bool
  | [] => false
  | e :: rest => e.matchesTriple || elementsMatch rest

def Element.matchesTriple : Element → Bool
  | .triple _ => true
  | .path p => p.path.predicate?.isSome
  | .group g => g.matchesTriple
  | .union branches => groupsMatch branches
  | _ => false

def groupsMatch : List Group → Bool
  | [] => false
  | g :: rest => g.matchesTriple || groupsMatch rest

end

/-! ## Solutions -/

/-- The triples that are there from the start. -/
def Source.storedTriples (src : Source) : Set Triple :=
  {t | t ∈ src.store.defaultGraph src.dataset}

/-- The unions of compatible solutions. -/
def joinSets (A B : Set Solution) : Set Solution :=
  {s | ∃ a ∈ A, ∃ b ∈ B, a.compatible b = true ∧ a.merge b = s}

/-- The solutions that triples of a set make of a pattern. -/
def TriplePattern.answers (S : Set Triple) (p : TriplePattern) : Set Solution :=
  {s | ∃ t ∈ S, p.match? t ∅ = some s}

section Answers

variable (S : Set Triple)

mutual

/-- The solutions of a group over a set of triples. -/
def Group.answers : Group → Set Solution
  | ⟨elements⟩ => {s ∈ elementsAnswers elements {∅} |
      ∀ e, Element.filter e ∈ elements → e.holds [] s = true}

/-- The solutions that some elements, read from left to right, make of other solutions. -/
def elementsAnswers : List Element → Set Solution → Set Solution
  | [], A => A
  | e :: rest, A => elementsAnswers rest (e.answers A)

/-- The solutions that an element makes of the solutions before it. -/
def Element.answers : Element → Set Solution → Set Solution
  | .triple p, A => joinSets A (p.answers S)
  | .path p, A =>
    match p.path.predicate? with
    | some iri => joinSets A ((TriplePattern.mk p.subject (.term iri) p.object).answers S)
    | none => A
  | .group g, A => joinSets A g.answers
  | .union [], A => A
  | .union (g :: rest), A => joinSets A (g.answers ∪ groupsAnswers rest)
  | _, A => A

/-- The solutions of some groups. -/
def groupsAnswers : List Group → Set Solution
  | [] => ∅
  | g :: rest => g.answers ∪ groupsAnswers rest

end

end Answers

/-! ## Derivation -/

/-- A head makes a triple of a solution: all places are bound, the subject to an IRI or a blank
node, and the predicate to an IRI. -/
def TriplePattern.Derives (p : TriplePattern) (s : Solution) (t : Triple) : Prop :=
  (s.resolve p.subject = some t.subject ∧ s.resolve p.predicate = some t.predicate ∧
    s.resolve p.object = some t.object) ∧
  (t.subject.isIri = true ∨ t.subject.isBlank = true) ∧ t.predicate.isIri = true

theorem TriplePattern.derive?_eq_some_iff {p : TriplePattern} {s : Solution} {t : Triple} :
    p.derive? s = some t ↔ p.Derives s t := by
  obtain ⟨subject, predicate, object⟩ := t
  simp only [derive?, validTriple?, Derives, Option.bind_eq_bind, Option.bind_eq_some_iff,
    Option.ite_none_right_eq_some, Option.some.injEq, Triple.mk.injEq, Triple.isValid,
    Bool.and_eq_true, Bool.or_eq_true]
  constructor
  · rintro ⟨a, ha, b, hb, c, hc, hvalid, rfl, rfl, rfl⟩
    exact ⟨⟨ha, hb, hc⟩, hvalid⟩
  · rintro ⟨⟨ha, hb, hc⟩, hvalid⟩
    exact ⟨_, ha, _, hb, _, hc, hvalid, rfl, rfl, rfl⟩

namespace RuleProgram

/-- Heads are triples, and bodies have a meaning and match triples. -/
structure OnTriples (r : RuleProgram) : Prop where
  heads : ∀ rule ∈ r.rules, ∀ head ∈ rule.heads, ∃ pattern, head = .triple pattern
  bodies : ∀ rule ∈ r.rules, rule.body.isBody = true ∧ rule.body.matchesTriple = true

/-- The triples that heads make of the solutions of their bodies over stored triples together with
derived ones. -/
def consequences (r : RuleProgram) (stored D : Set Triple) : Set Triple :=
  {t | ∃ rule ∈ r.rules, ∃ s ∈ rule.body.answers (stored ∪ D),
    ∃ p, RuleHead.triple p ∈ rule.heads ∧ p.Derives s t}

/-- The set contains all that the rules derive from it and the stored triples. -/
def Closed (r : RuleProgram) (stored D : Set Triple) : Prop := r.consequences stored D ⊆ D

end RuleProgram

/-! ## Monotonicity -/

theorem joinSets_mono {A A' B B' : Set Solution} (hA : A ⊆ A') (hB : B ⊆ B') :
    joinSets A B ⊆ joinSets A' B' := by
  rintro s ⟨a, ha, b, hb, h⟩
  exact ⟨a, hA ha, b, hB hb, h⟩

@[simp] theorem joinSets_unit (B : Set Solution) : joinSets {∅} B = B := by
  ext s
  simp [joinSets]

theorem TriplePattern.answers_mono {S S' : Set Triple} (h : S ⊆ S') (p : TriplePattern) :
    p.answers S ⊆ p.answers S' := by
  rintro s ⟨t, ht, hs⟩
  exact ⟨t, h ht, hs⟩

section Monotone

variable {S S' : Set Triple}

mutual

/-- More triples have more solutions. -/
theorem Group.answers_mono (h : S ⊆ S') : ∀ g : Group, g.answers S ⊆ g.answers S'
  | ⟨elements⟩ => fun s hs => by
    rw [Group.answers] at hs ⊢
    exact ⟨elementsAnswers_mono h elements subset_rfl hs.1, hs.2⟩

theorem elementsAnswers_mono (h : S ⊆ S') : ∀ (elements : List Element) {A A' : Set Solution},
    A ⊆ A' → elementsAnswers S elements A ⊆ elementsAnswers S' elements A'
  | [], _, _, hA => hA
  | e :: rest, _, _, hA => elementsAnswers_mono h rest (e.answers_mono h hA)

theorem Element.answers_mono (h : S ⊆ S') : ∀ (e : Element) {A A' : Set Solution}, A ⊆ A' →
    e.answers S A ⊆ e.answers S' A'
  | .triple p, _, _, hA => joinSets_mono hA (p.answers_mono h)
  | .path p, _, _, hA => by
    unfold Element.answers
    split
    · exact joinSets_mono hA (TriplePattern.answers_mono h _)
    · exact hA
  | .group g, _, _, hA => joinSets_mono hA (g.answers_mono h)
  | .union [], _, _, hA => hA
  | .union (g :: rest), _, _, hA =>
    joinSets_mono hA (Set.union_subset_union (g.answers_mono h) (groupsAnswers_mono h rest))
  | .filter _, _, _, hA | .optional _, _, _, hA | .minus _, _, _, hA | .bind _ _, _, _, hA
  | .graph _ _, _, _, hA | .subSelect _, _, _, hA | .service _ _ _, _, _, hA
  | .window _ _, _, _, hA | .atom _, _, _, hA => hA

theorem groupsAnswers_mono (h : S ⊆ S') : ∀ groups : List Group,
    groupsAnswers S groups ⊆ groupsAnswers S' groups
  | [] => subset_rfl
  | g :: rest => Set.union_subset_union (g.answers_mono h) (groupsAnswers_mono h rest)

end

end Monotone

/-! ## Terms -/

/-- The terms in some triples. -/
def termsOf (S : Set Triple) : Set Term :=
  {a | ∃ t ∈ S, a = t.subject ∨ a = t.predicate ∨ a = t.object}

/-- A solution binds variables to the given terms only. -/
def Solution.Over (U : Set Term) (s : Solution) : Prop := ∀ v a, s.get? v = some a → a ∈ U

section Terms

variable {S : Set Triple} {U : Set Term} {A B : Set Solution} {s : Solution}

theorem Solution.over_of_mem_joinSets (hA : ∀ s ∈ A, s.Over U) (hB : ∀ s ∈ B, s.Over U)
    (h : s ∈ joinSets A B) : s.Over U := by
  obtain ⟨a, ha, b, hb, -, rfl⟩ := h
  intro v t hv
  rw [get?_merge] at hv
  cases hav : a.get? v with
  | some u =>
      rw [hav] at hv
      exact hA a ha v t (hav.trans hv)
  | none =>
      rw [hav] at hv
      exact hB b hb v t hv

theorem TriplePattern.over_of_mem_answers (hS : termsOf S ⊆ U) {p : TriplePattern}
    (h : s ∈ p.answers S) : s.Over U := by
  obtain ⟨t, ht, hs⟩ := h
  obtain ⟨⟨hsubject, hpredicate, hobject⟩, -, hnew⟩ := match?_eq_some_iff.1 hs
  intro v a hv
  have hmem : Item.var v ∈ p.items := by
    by_contra hnot
    rw [hnew v rfl hnot] at hv
    cases hv
  have hpart {i : Item} {b : Term} (hi : Item.var v = i) (hb : s.resolve i = some b) : a = b := by
    subst hi
    exact Option.some.inj (hv.symm.trans hb)
  simp only [items, List.mem_cons, List.not_mem_nil, or_false] at hmem
  refine hS ⟨t, ht, ?_⟩
  rcases hmem with hi | hi | hi
  · exact .inl (hpart hi hsubject)
  · exact .inr (.inl (hpart hi hpredicate))
  · exact .inr (.inr (hpart hi hobject))

mutual

/-- Solutions bind variables to terms of the triples. -/
theorem Group.over_of_mem_answers (hS : termsOf S ⊆ U) : ∀ g : Group, ∀ s ∈ g.answers S, s.Over U
  | ⟨elements⟩, s, hs => by
    rw [Group.answers] at hs
    refine over_of_mem_elementsAnswers hS elements (fun s hs v t hv => ?_) s hs.1
    rw [Set.mem_singleton_iff.1 hs] at hv
    simp at hv

theorem over_of_mem_elementsAnswers (hS : termsOf S ⊆ U) : ∀ (elements : List Element)
    {A : Set Solution}, (∀ s ∈ A, s.Over U) → ∀ s ∈ elementsAnswers S elements A, s.Over U
  | [], _, hA => hA
  | e :: rest, _, hA => over_of_mem_elementsAnswers hS rest (e.over_of_mem_answers hS hA)

theorem Element.over_of_mem_answers (hS : termsOf S ⊆ U) : ∀ (e : Element) {A : Set Solution},
    (∀ s ∈ A, s.Over U) → ∀ s ∈ e.answers S A, s.Over U
  | .triple _, _, hA => fun _ =>
    Solution.over_of_mem_joinSets hA fun _ => TriplePattern.over_of_mem_answers hS
  | .path p, _, hA => by
    unfold Element.answers
    split
    · exact fun _ => Solution.over_of_mem_joinSets hA fun _ => TriplePattern.over_of_mem_answers hS
    · exact hA
  | .group g, _, hA => fun _ => Solution.over_of_mem_joinSets hA (g.over_of_mem_answers hS)
  | .union [], _, hA => hA
  | .union (g :: rest), _, hA => fun _ => Solution.over_of_mem_joinSets hA fun s hs =>
    hs.elim (g.over_of_mem_answers hS s) (over_of_mem_groupsAnswers hS rest s)
  | .filter _, _, hA | .optional _, _, hA | .minus _, _, hA | .bind _ _, _, hA
  | .graph _ _, _, hA | .subSelect _, _, hA | .service _ _ _, _, hA
  | .window _ _, _, hA | .atom _, _, hA => hA

theorem over_of_mem_groupsAnswers (hS : termsOf S ⊆ U) : ∀ groups : List Group,
    ∀ s ∈ groupsAnswers S groups, s.Over U
  | [], _, hs => hs.elim
  | g :: rest, s, hs =>
    hs.elim (g.over_of_mem_answers hS s) (over_of_mem_groupsAnswers hS rest s)

end

end Terms

/-! ## The least closed set -/

/-- The constants of a head. -/
def RuleHead.terms : RuleHead → List Term
  | .triple p => p.items.filterMap Item.term?
  | .atom _ => []

namespace RuleProgram

variable {r : RuleProgram} {stored D D' : Set Triple} {T : Nat → Set Triple}

theorem consequences_mono (h : D ⊆ D') : r.consequences stored D ⊆ r.consequences stored D' := by
  rintro t ⟨rule, hrule, s, hs, hderives⟩
  exact ⟨rule, hrule, s, Group.answers_mono (Set.union_subset_union_right _ h) _ hs, hderives⟩

/-- The terms of which derived triples are made. -/
def terms (r : RuleProgram) (stored : Set Triple) : Set Term :=
  termsOf stored ∪ {a | a ∈ (r.rules.flatMap Rule.heads).flatMap RuleHead.terms}

theorem termsOf_consequences (h : termsOf D ⊆ r.terms stored) :
    termsOf (r.consequences stored D) ⊆ r.terms stored := by
  rintro a ⟨t, ⟨rule, hrule, s, hs, p, hp, ⟨hsubject, hpredicate, hobject⟩, -⟩, ha⟩
  have hover : s.Over (r.terms stored) := by
    refine rule.body.over_of_mem_answers (S := stored ∪ D) ?_ s hs
    rintro a ⟨t, ht | ht, ha⟩
    · exact .inl ⟨t, ht, ha⟩
    · exact h ⟨t, ht, ha⟩
  have hpart {i : Item} {b : Term} (hi : i ∈ p.items) (hb : s.resolve i = some b) :
      b ∈ r.terms stored := by
    cases i with
    | var v => exact hover v b hb
    | term c =>
        obtain rfl := Option.some.inj hb
        refine .inr (List.mem_flatMap.2 ⟨_, List.mem_flatMap.2 ⟨rule, hrule, hp⟩, ?_⟩)
        exact List.mem_filterMap.2 ⟨_, hi, rfl⟩
  rcases ha with rfl | rfl | rfl
  · exact hpart (by simp [TriplePattern.items]) hsubject
  · exact hpart (by simp [TriplePattern.items]) hpredicate
  · exact hpart (by simp [TriplePattern.items]) hobject

theorem finite_terms (h : stored.Finite) : (r.terms stored).Finite := by
  refine Set.Finite.union ?_ (List.finite_toSet _)
  have hparts : termsOf stored ⊆
      ⋃ t ∈ stored, ({t.subject, t.predicate, t.object} : Set Term) := by
    rintro a ⟨t, ht, ha⟩
    exact Set.mem_biUnion ht (by simpa using ha)
  exact (h.biUnion fun t _ => Set.toFinite _).subset hparts

/-- There are but finitely many triples of finitely many terms. -/
theorem finite_of_termsOf {U : Set Term} (hU : U.Finite) :
    {t : Triple | termsOf {t} ⊆ U}.Finite := by
  refine ((hU.prod (hU.prod hU)).image fun a : Term × Term × Term =>
    (⟨a.1, a.2.1, a.2.2⟩ : Triple)).subset fun t ht => ?_
  have hpart {a : Term} (ha : a = t.subject ∨ a = t.predicate ∨ a = t.object) : a ∈ U :=
    ht ⟨t, rfl, ha⟩
  exact ⟨(t.subject, t.predicate, t.object),
    ⟨hpart (.inl rfl), hpart (.inr (.inl rfl)), hpart (.inr (.inr rfl))⟩, rfl⟩

/-- What is derived from nothing, round by round, grows. -/
theorem rounds_mono (hstart : T 0 = ∅) (hstep : ∀ n, T (n + 1) = r.consequences stored (T n))
    (n : Nat) : T n ⊆ T (n + 1) := by
  induction n with
  | zero => exact hstart ▸ Set.empty_subset _
  | succ n ih =>
      rw [hstep n, hstep (n + 1)]
      exact consequences_mono ih

/-- What is derived from nothing, round by round, comes to an end. -/
theorem eventually_steady (hstored : stored.Finite) (hstart : T 0 = ∅)
    (hstep : ∀ n, T (n + 1) = r.consequences stored (T n)) :
    ∀ᶠ n in Filter.atTop, T (n + 1) = T n := by
  have hmono : Monotone T := monotone_nat_of_le_succ (rounds_mono hstart hstep)
  have hterms (n : Nat) : termsOf (T n) ⊆ r.terms stored := by
    induction n with
    | zero =>
        rw [hstart]
        rintro a ⟨t, ht, -⟩
        exact ht.elim
    | succ n ih => exact hstep n ▸ termsOf_consequences ih
  -- each triple is there from some round on, or never
  have hall : ∀ᶠ n in Filter.atTop, ∀ t ∈ {t : Triple | termsOf {t} ⊆ r.terms stored},
      t ∈ T (n + 1) → t ∈ T n := by
    refine (Filter.eventually_all_finite (finite_of_termsOf (finite_terms hstored))).2 fun t _ => ?_
    by_cases ht : ∃ m, t ∈ T m
    · obtain ⟨m, hm⟩ := ht
      exact Filter.eventually_atTop.2 ⟨m, fun n hn _ => hmono hn hm⟩
    · exact Filter.Eventually.of_forall fun n hn => absurd ⟨n + 1, hn⟩ ht
  refine hall.mono fun n hn => (rounds_mono hstart hstep n).antisymm' fun t ht => hn t ?_ ht
  rintro a ⟨t', rfl, ha⟩
  exact hterms (n + 1) ⟨t', ht, ha⟩

/-- Where the rounds come to an end, they have derived the least closed set. -/
theorem isLeast_of_steady (hstart : T 0 = ∅) (hstep : ∀ n, T (n + 1) = r.consequences stored (T n))
    {n : Nat} (hn : T (n + 1) = T n) : IsLeast {D | r.Closed stored D} (T n) := by
  refine ⟨?_, fun D hD => ?_⟩
  · show r.consequences stored (T n) ⊆ T n
    rw [← hstep, hn]
  · clear hn
    induction n with
    | zero => exact hstart ▸ Set.empty_subset _
    | succ n ih =>
        rw [hstep]
        exact (consequences_mono ih).trans hD

end RuleProgram

end QuadAlgebra
