import QuadAlgebra.Optimization.Specialization
import QuadAlgebra.Proofs.Semantics.Emission

/-!
# Heads fitted to patterns

A head makes terms of a row, and a pattern makes a solution of terms. Unifying the two beforehand
says what comes of that without the terms: nothing if there is no specialization, and otherwise what
the operators of the specialization make of the row (`Specialization.emitChain_unify`).

What has been found about some positions holds of a row and a solution exactly if the solution gives
the items of the pattern what the row gives the items of the head at these positions
(`Specialization.Unifier.holds_unify`, `Specialization.Unifier.holds_unifyAll`).
-/

namespace QuadAlgebra

/-! ## Chains of operators -/

/-- What some operators make of rows, each of which reads the one before on its first operand. -/
def Operator.emitChain (src : Source) (id : OperatorId)
    (ops : List (Operator (Except Error (List Solution)))) (rows : List Row) :
    Except Error (List Row) :=
  ops.foldlM (fun rows op => op.emit src id [(0, rows)]) rows

namespace Operator

variable {src : Source} {id : OperatorId} {ops : List (Operator (Except Error (List Solution)))}
  {rows rows' : List Solution}

theorem emitChain_cons {op : Operator (Except Error (List Solution))}
    {f : List Solution → List Solution} (h : ∀ l, op.emit src id (solutionOperands l) =
      .ok ((f (l.flatMap Prod.snd)).map .solution)) :
    emitChain src id (op :: ops) (rows.map .solution) =
      emitChain src id ops ((f rows).map .solution) := by
  have hop : op.emit src id [(0, rows.map .solution)] = .ok ((f rows).map .solution) := by
    simpa [solutionOperands] using h [(0, rows)]
  unfold emitChain
  rw [List.foldlM_cons, hop]
  rfl

/-- Constants are bound one after the other. -/
theorem emitChain_constants (constants : List (Variable × Term)) :
    emitChain src id (constants.map fun c => .bind c.1 (.constant c.2)) (rows.map .solution) =
      .ok ((rows.map fun row => constants.foldl (fun r c => r.insert c.1 c.2) row).map
        .solution) := by
  induction constants generalizing rows with
  | nil =>
      simp only [List.foldl_nil, List.map_id']
      rfl
  | cons c rest ih =>
      rw [List.map_cons, emitChain_cons fun _ => emit_bind c.1 (.constant c.2), ih]
      simp only [List.map_map]
      rfl

end Operator

/-- A renaming of each variable to itself changes nothing. -/
theorem Renaming.solution_eq_self {r : Renaming} (h : ∀ v w, r.get? v = some w → v = w)
    (s : Solution) : r.solution s = s := by
  refine Solution.eq_of_get? fun v => ?_
  rw [get?_solution]
  cases hv : r.get? v with
  | some w => rw [Option.elim_some, h v w hv]
  | none =>
      have hnot : v ∉ r.values := by
        intro hmem
        obtain ⟨⟨w, v'⟩, he, rfl⟩ := List.mem_map.1 hmem
        have hw := OrdMap.mem_entries_iff.1 he
        obtain rfl := h w v' hw
        rw [hv] at hw
        cases hw
      rw [Option.elim_none, if_neg hnot]

namespace Specialization

/-! ## What unification finds -/

namespace Unifier

/-- The row satisfies the equalities, and the solution gives the variables of the pattern what the
row gives the items that stand for them. -/
structure Holds (u : Unifier) (row r : Solution) : Prop where
  equal : ∀ e ∈ u.equalities, row.resolve e.1 = row.resolve e.2
  assigned : ∀ v i, u.assigned.get? v = some i → r.get? v = row.resolve i

variable {u u' : Unifier} {row r : Solution} {head pattern : Item} {v : Variable}

theorem holds_start : Holds ⟨[], ∅⟩ row r := ⟨by simp, by simp⟩

theorem holds_require {a b : Item} :
    (u.require a b).Holds row r ↔ u.Holds row r ∧ row.resolve a = row.resolve b := by
  constructor
  · intro h
    exact ⟨⟨fun e he => h.equal e (List.mem_append_left _ he), h.assigned⟩,
      h.equal (a, b) (List.mem_append_right _ (List.mem_singleton_self _))⟩
  · rintro ⟨h, hab⟩
    refine ⟨fun e he => ?_, h.assigned⟩
    rcases List.mem_append.1 he with he | he
    · exact h.equal e he
    · obtain rfl := List.mem_singleton.1 he
      exact hab

theorem holds_assign (hv : u.assigned.get? v = none) :
    Holds { u with assigned := u.assigned.insert v head } row r ↔
      u.Holds row r ∧ r.get? v = row.resolve head := by
  constructor
  · intro h
    have hassigned (w : Variable) (i : Item)
        (hw : (if w = v then some head else u.assigned.get? w) = some i) :
        r.get? w = row.resolve i :=
      h.assigned w i (by rw [OrdMap.get?_insert]; exact hw)
    refine ⟨⟨h.equal, fun w i hw => hassigned w i ?_⟩, hassigned v head (if_pos rfl)⟩
    rw [if_neg, hw]
    rintro rfl
    rw [hv] at hw
    cases hw
  · rintro ⟨h, hhead⟩
    refine ⟨h.equal, fun w i hw => ?_⟩
    rw [OrdMap.get?_insert] at hw
    split at hw
    · next hwv =>
      cases hw
      rw [hwv, hhead]
    · exact h.assigned w i hw

/-- One position: unification succeeds in keeping track of exactly those solutions that give the
item of the pattern what the row gives the item of the head. -/
theorem holds_unify : (∃ u', u.unify head pattern = some u' ∧ u'.Holds row r) ↔
    u.Holds row r ∧ r.resolve pattern = row.resolve head := by
  cases pattern with
  | term t =>
      cases head with
      | term s =>
          by_cases hst : s = t
          · simp [unify, hst]
          · simp [unify, hst, Ne.symm hst]
      | var w =>
          simp only [unify, Option.some.injEq, exists_eq_left', holds_require]
          rw [Solution.resolve_term, Solution.resolve_term, eq_comm (a := some t)]
  | var v =>
      cases hv : u.assigned.get? v with
      | none =>
          simp only [unify, hv, Option.some.injEq, exists_eq_left']
          exact holds_assign hv
      | some earlier =>
          -- the solution already gives the variable what the row gives the earlier item
          have hearlier (h : u.Holds row r) : r.get? v = row.resolve earlier :=
            h.assigned v earlier hv
          by_cases hsame : earlier = head
          · simp only [unify, hv, if_pos hsame, Option.some.injEq, exists_eq_left']
            exact ⟨fun h => ⟨h, hsame ▸ hearlier h⟩, fun h => h.1⟩
          · have hrequire : (u.require earlier head).Holds row r ↔
                u.Holds row r ∧ r.get? v = row.resolve head :=
              holds_require.trans
                ⟨fun h => ⟨h.1, (hearlier h.1).trans h.2⟩,
                  fun h => ⟨h.1, (hearlier h.1).symm.trans h.2⟩⟩
            cases earlier with
            | term a =>
                cases head with
                | term b =>
                    simp only [unify, hv, if_neg hsame, reduceCtorEq, false_and, exists_false,
                      false_iff, not_and]
                    intro h hb
                    have hab : some a = some b := (hearlier h).symm.trans hb
                    exact hsame (congrArg Item.term (Option.some.inj hab))
                | var w => simpa [unify, hv] using hrequire
            | var w => simpa [unify, hv, hsame] using hrequire

/-- Unifies the items of some positions, one after the other. -/
def unifyAll (u : Unifier) (pairs : List (Item × Item)) : Option Unifier :=
  pairs.foldlM (fun u p => u.unify p.1 p.2) u

theorem unifyAll_cons (p : Item × Item) (pairs : List (Item × Item)) :
    u.unifyAll (p :: pairs) = (u.unify p.1 p.2).bind (·.unifyAll pairs) := rfl

/-- All positions, by induction on them. -/
theorem holds_unifyAll {pairs : List (Item × Item)} :
    (∃ u', u.unifyAll pairs = some u' ∧ u'.Holds row r) ↔
      u.Holds row r ∧ ∀ p ∈ pairs, r.resolve p.2 = row.resolve p.1 := by
  induction pairs generalizing u with
  | nil => simp [unifyAll]
  | cons p rest ih =>
      rw [unifyAll_cons, List.forall_mem_cons, ← and_assoc, ← holds_unify]
      simp only [Option.bind_eq_some_iff]
      constructor
      · rintro ⟨u', ⟨u₁, hfirst, hrest⟩, hholds⟩
        obtain ⟨h₁, hall⟩ := ih.1 ⟨u', hrest, hholds⟩
        exact ⟨⟨u₁, hfirst, h₁⟩, hall⟩
      · rintro ⟨⟨u₁, hfirst, h₁⟩, hall⟩
        obtain ⟨u', hrest, hholds⟩ := ih.2 ⟨h₁, hall⟩
        exact ⟨u', ⟨u₁, hfirst, hrest⟩, hholds⟩

/-! ### Where items come from -/

/-- Variables in what has been found are variables of the head, and an item stands for every
variable of the pattern and for no other. -/
structure Covers (u : Unifier) (pairs : List (Item × Item)) : Prop where
  equalities : ∀ e ∈ u.equalities, ∀ v, e.1 = .var v ∨ e.2 = .var v → .var v ∈ pairs.map Prod.fst
  heads : ∀ v i, u.assigned.get? v = some i → i ∈ pairs.map Prod.fst
  patterns : ∀ v, (∃ i, u.assigned.get? v = some i) ↔ Item.var v ∈ pairs.map Prod.snd

theorem covers_start : Covers ⟨[], ∅⟩ [] := ⟨by simp, by simp, by simp⟩

variable {pairs : List (Item × Item)}

theorem Covers.skip (h : u.Covers pairs)
    (hpattern : ∀ v, pattern = .var v → ∃ i, u.assigned.get? v = some i) :
    u.Covers (pairs ++ [(head, pattern)]) where
  equalities e he v hv := by
    rw [List.map_append]
    exact List.mem_append_left _ (h.equalities e he v hv)
  heads v i hi := by
    rw [List.map_append]
    exact List.mem_append_left _ (h.heads v i hi)
  patterns v := by
    rw [h.patterns, List.map_append, List.mem_append, List.map_singleton, List.mem_singleton]
    exact ⟨.inl, fun hv => hv.elim id fun he => (h.patterns v).1 (hpattern v he.symm)⟩

theorem Covers.require {a b : Item} (h : u.Covers pairs)
    (hab : ∀ v, a = .var v ∨ b = .var v → .var v ∈ pairs.map Prod.fst) :
    (u.require a b).Covers pairs where
  equalities e he v hv := by
    rcases List.mem_append.1 he with he | he
    · exact h.equalities e he v hv
    · obtain rfl := List.mem_singleton.1 he
      exact hab v hv
  heads := h.heads
  patterns := h.patterns

theorem Covers.assign (h : u.Covers pairs) :
    Covers { u with assigned := u.assigned.insert v head } (pairs ++ [(head, .var v)]) where
  equalities e he w hw := by
    rw [List.map_append]
    exact List.mem_append_left _ (h.equalities e he w hw)
  heads w i hi := by
    rw [OrdMap.get?_insert] at hi
    rw [List.map_append, List.mem_append]
    split at hi
    · cases hi
      exact .inr (List.mem_singleton_self _)
    · exact .inl (h.heads w i hi)
  patterns w := by
    rw [List.map_append, List.mem_append, ← h.patterns, List.map_singleton, List.mem_singleton]
    by_cases hw : w = v
    · simp [OrdMap.get?_insert, hw]
    · simp [OrdMap.get?_insert, hw]

theorem Covers.unify (h : u.Covers pairs) (hu : u.unify head pattern = some u') :
    u'.Covers (pairs ++ [(head, pattern)]) := by
  have hhead : head ∈ (pairs ++ [(head, pattern)]).map Prod.fst := by simp
  cases pattern with
  | term t =>
      have hskip : u.Covers (pairs ++ [(head, .term t)]) := h.skip fun v hv => by cases hv
      cases head with
      | term s =>
          obtain ⟨-, hsame⟩ := Option.ite_none_right_eq_some.1 hu
          exact Option.some.inj hsame ▸ hskip
      | var w =>
          obtain rfl := Option.some.inj hu
          refine hskip.require fun v hv => ?_
          rcases hv with hv | hv
          · exact hv ▸ hhead
          · cases hv
  | var v =>
      cases hv : u.assigned.get? v with
      | none =>
          simp only [Unifier.unify, hv, Option.some.injEq] at hu
          exact hu ▸ h.assign
      | some earlier =>
          have hskip : u.Covers (pairs ++ [(head, .var v)]) := h.skip fun w hw => by
            cases hw
            exact ⟨earlier, hv⟩
          have hearlier := hskip.heads v earlier hv
          simp only [Unifier.unify, hv] at hu
          split at hu
          · exact Option.some.inj hu ▸ hskip
          · split at hu
            · cases hu
            · refine Option.some.inj hu ▸ hskip.require fun w hw => ?_
              exact hw.elim (fun he => he ▸ hearlier) fun he => he ▸ hhead

theorem Covers.unifyAll {rest : List (Item × Item)} (h : u.Covers pairs)
    (hu : u.unifyAll rest = some u') : u'.Covers (pairs ++ rest) := by
  induction rest generalizing u pairs with
  | nil =>
      obtain rfl := Option.some.inj hu
      rwa [List.append_nil]
  | cons p rest ih =>
      obtain ⟨u₁, hfirst, hrest⟩ := Option.bind_eq_some_iff.1 hu
      have hcovers := ih (h.unify hfirst) hrest
      rwa [List.append_assoc] at hcovers

end Unifier

/-! ## What the operators do -/

/-- The specialization that says what has been found. -/
def ofUnifier (u : Unifier) : Specialization :=
  ⟨u.equalities,
    OrdMap.ofList (u.assigned.entries.filterMap fun (v, i) => i.var?.map fun source => (v, source)),
    u.assigned.entries.filterMap fun (v, i) => i.term?.map fun t => (v, t)⟩

theorem unify?_eq (heads patterns : List Item) :
    unify? heads patterns = (Unifier.unifyAll ⟨[], ∅⟩ (heads.zip patterns)).map ofUnifier := by
  rw [Option.map_eq_bind]
  rfl

/-- The solution that the operators make of a row which satisfies the equalities. -/
def solution (s : Specialization) (row : Solution) : Solution :=
  s.constants.foldl (fun r c => r.insert c.1 c.2)
    ((s.renamed.solution row).restrict s.renamed.keySet)

section Found

variable {u : Unifier} {row r : Solution} {v : Variable}

/-- The entries of a map whose items have a part, with this part. -/
def entriesWith {α : Type} (f : Item → Option α) (m : OrdMap Variable Item) :
    List (Variable × α) :=
  m.entries.filterMap fun (v, i) => (f i).map fun a => (v, a)

theorem nodup_entriesWith {α : Type} (f : Item → Option α) (m : OrdMap Variable Item) :
    ((entriesWith f m).map Prod.fst).Nodup := by
  have hkeys : (m.entries.map Prod.fst).Nodup := m.keySet.nodup_toList
  refine hkeys.sublist ?_
  unfold entriesWith
  induction m.entries with
  | nil => exact .slnil
  | cons e rest ih =>
      obtain ⟨v, i⟩ := e
      cases hi : f i with
      | none => simpa [List.filterMap_cons, hi] using ih.cons v
      | some a => simpa [List.filterMap_cons, hi] using ih.cons_cons v

theorem mem_entriesWith {α : Type} {f : Item → Option α} {m : OrdMap Variable Item} {a : α} :
    (v, a) ∈ entriesWith f m ↔ ∃ i, m.get? v = some i ∧ f i = some a := by
  unfold entriesWith
  rw [List.mem_filterMap]
  constructor
  · rintro ⟨⟨w, i⟩, he, hi⟩
    obtain ⟨b, hb, hpair⟩ := Option.map_eq_some_iff.1 hi
    obtain ⟨rfl, rfl⟩ := Prod.mk.inj hpair
    exact ⟨i, OrdMap.mem_entries_iff.1 he, hb⟩
  · rintro ⟨i, he, hi⟩
    exact ⟨(v, i), OrdMap.mem_entries_iff.2 he, by simp [hi]⟩

theorem get?_renamed {w : Variable} :
    (ofUnifier u).renamed.get? v = some w ↔ u.assigned.get? v = some (.var w) := by
  change (OrdMap.ofList (entriesWith Item.var? u.assigned)).get? v = some w ↔ _
  rw [OrdMap.get?_ofList (nodup_entriesWith _ _), mem_entriesWith]
  constructor
  · rintro ⟨i, hi, hw⟩
    cases i with
    | term t => cases hw
    | var w' => exact Option.some.inj hw ▸ hi
  · exact fun h => ⟨_, h, rfl⟩

theorem mem_constants {t : Term} :
    (v, t) ∈ (ofUnifier u).constants ↔ u.assigned.get? v = some (.term t) := by
  refine mem_entriesWith.trans ⟨?_, fun h => ⟨_, h, rfl⟩⟩
  rintro ⟨i, hi, ht⟩
  cases i with
  | term t' => exact Option.some.inj ht ▸ hi
  | var w => cases ht

/-- Each variable of the pattern gets what the row gives to the item that stands for it. -/
theorem get?_solution (u : Unifier) (row : Solution) (v : Variable) :
    ((ofUnifier u).solution row).get? v = (u.assigned.get? v).bind row.resolve := by
  have hkeys : v ∈ (ofUnifier u).constants.map Prod.fst ↔
      ∃ t, u.assigned.get? v = some (.term t) := by
    simp only [List.mem_map, Prod.exists, exists_and_right, exists_eq_right, mem_constants]
  have htargets : v ∈ (ofUnifier u).renamed.keySet ↔ ∃ w, u.assigned.get? v = some (.var w) := by
    rw [OrdMap.mem_keySet]
    exact exists_congr fun w => get?_renamed
  refine Option.ext fun t => ?_
  refine (OrdMap.get?_insertAll (nodup_entriesWith Item.term? u.assigned) _).trans ?_
  change (v, t) ∈ (ofUnifier u).constants ∨ v ∉ (ofUnifier u).constants.map Prod.fst ∧
    OrdMap.get? (Solution.restrict _ _) v = some t ↔ _
  rw [mem_constants, hkeys, Solution.get?_restrict]
  cases hv : u.assigned.get? v with
  | none => simp [htargets, hv]
  | some i =>
      cases i with
      | term s => simp
      | var w =>
          have hw : (ofUnifier u).renamed.get? v = some w := get?_renamed.2 hv
          simp [htargets, hv, Renaming.get?_solution, hw]

/-- The row satisfies the equalities and has made the solution exactly if what has been found holds
of both and the solution binds nothing but variables of the pattern. -/
theorem holds_iff_solution :
    u.Holds row r ∧ (∀ v, u.assigned.get? v = none → r.get? v = none) ↔
      (∀ e ∈ u.equalities, row.resolve e.1 = row.resolve e.2) ∧ r = (ofUnifier u).solution row := by
  constructor
  · rintro ⟨hholds, hnone⟩
    refine ⟨hholds.equal, Solution.eq_of_get? fun v => ?_⟩
    rw [get?_solution]
    cases hv : u.assigned.get? v with
    | none => exact hnone v hv
    | some i => exact hholds.assigned v i hv
  · rintro ⟨hequal, rfl⟩
    refine ⟨⟨hequal, fun v i hv => ?_⟩, fun v hv => ?_⟩
    · rw [get?_solution, hv, Option.bind_some]
    · rw [get?_solution, hv, Option.bind_none]

end Found

/-! ### The chain of operators -/

/-- The filter keeps a row in which all sides of equalities are bound if both sides are equal. -/
theorem satisfiesAll_iff {equalities : List (Item × Item)} {row : Solution}
    (hbound : ∀ e ∈ equalities, row.resolve e.1 ≠ none ∧ row.resolve e.2 ≠ none) :
    satisfiesAll equalities row = true ↔
      ∀ e ∈ equalities, row.resolve e.1 = row.resolve e.2 := by
  rw [satisfiesAll, List.all_eq_true]
  refine forall₂_congr fun e he => ?_
  obtain ⟨hleft, hright⟩ := hbound e he
  obtain ⟨a, ha⟩ := Option.ne_none_iff_exists'.1 hleft
  obtain ⟨b, hb⟩ := Option.ne_none_iff_exists'.1 hright
  simp [ha, hb]

section Chain

variable (s : Specialization) (src : Source) (id : OperatorId) (rows : List Solution)
  (rest : List (Operator (Except Error (List Solution))))

theorem emitChain_equalities :
    Operator.emitChain src id
      ((if s.equalities.isEmpty then [] else [.ruleFilter s.equalities]) ++ rest)
        (rows.map .solution) =
      Operator.emitChain src id rest
        ((rows.filter (satisfiesAll s.equalities)).map .solution) := by
  split
  · next hempty =>
    have hall : ∀ row ∈ rows, satisfiesAll s.equalities row = true := fun row _ => by
      simp [satisfiesAll, List.isEmpty_iff.1 hempty]
    rw [List.filter_eq_self.2 hall, List.nil_append]
  · exact Operator.emitChain_cons fun _ => Operator.emit_ruleFilter s.equalities

theorem emitChain_renamed :
    Operator.emitChain src id
      ((if s.renamed.entries.any fun e => e.1 != e.2 then [.replaceVar s.renamed] else []) ++ rest)
        (rows.map .solution) =
      Operator.emitChain src id rest ((rows.map s.renamed.solution).map .solution) := by
  split
  · exact Operator.emitChain_cons fun _ => Operator.emit_replaceVar s.renamed
  · next hnone =>
    have hself (row : Solution) : s.renamed.solution row = row := by
      refine Renaming.solution_eq_self (fun v w hv => ?_) row
      have hany := List.any_eq_false.1 (Bool.not_eq_true _ ▸ hnone) (v, w)
        (OrdMap.mem_entries_iff.2 hv)
      simpa using hany
    rw [List.map_congr_left fun row _ => hself row, List.map_id', List.nil_append]

/-- What the operators make of some rows: each row is cut to the variables of the head, and makes
one solution or is dropped. -/
theorem emitChain_operators (headVars : VarSet) :
    Operator.emitChain src id (s.operators headVars) (rows.map .solution) =
      .ok ((((rows.map (·.restrict headVars)).filter (satisfiesAll s.equalities)).map
        s.solution).map .solution) := by
  unfold operators
  rw [List.append_assoc, List.append_assoc, List.append_assoc, List.singleton_append,
    Operator.emitChain_cons fun _ => Operator.emit_projection headVars, emitChain_equalities,
    emitChain_renamed, List.singleton_append,
    Operator.emitChain_cons fun _ => Operator.emit_projection s.renamed.keySet,
    Operator.emitChain_constants]
  simp only [List.map_map]
  rfl

end Chain

/-! ## Heads and patterns -/

section Match

variable {heads patterns : List Item} {terms : List Term} {row r : Solution}

/-- A row that binds the variables of a head instantiates it. -/
theorem exists_instance (hbound : ∀ i ∈ heads, row.resolve i ≠ none) :
    ∃ terms, heads.mapM row.resolve = some terms ∧
      List.Forall₂ (fun i t => row.resolve i = some t) heads terms := by
  induction heads with
  | nil => exact ⟨[], rfl, .nil⟩
  | cons i rest ih =>
      obtain ⟨t, ht⟩ := Option.ne_none_iff_exists'.1 (hbound i List.mem_cons_self)
      obtain ⟨terms, hmap, hall⟩ := ih fun j hj => hbound j (List.mem_cons_of_mem _ hj)
      exact ⟨t :: terms, by simp [List.mapM_cons, ht, hmap], .cons ht hall⟩

/-- The items of a pattern denote the terms of a head exactly if they denote, position by position,
what the items of the head do. -/
theorem forall₂_iff_zip (hterms : List.Forall₂ (fun i t => row.resolve i = some t) heads terms)
    (hlength : heads.length = patterns.length) :
    List.Forall₂ (fun i t => r.resolve i = some t) patterns terms ↔
      ∀ p ∈ heads.zip patterns, r.resolve p.2 = row.resolve p.1 := by
  induction hterms generalizing patterns with
  | nil =>
      obtain rfl := List.length_eq_zero_iff.1 hlength.symm
      simp
  | cons hfirst _ ih =>
      obtain ⟨i, rest, rfl⟩ := List.exists_cons_of_length_eq_add_one hlength.symm
      rw [List.forall₂_cons, ih (Nat.add_right_cancel hlength), List.zip_cons_cons,
        List.forall_mem_cons, hfirst]

/-- What a pattern makes of an instance of a head, by what unification finds. -/
theorem unifyAll_eq_some_iff_holds
    (hterms : List.Forall₂ (fun i t => row.resolve i = some t) heads terms)
    (hlength : heads.length = patterns.length) :
    Solution.unifyAll ∅ patterns terms = some r ↔
      (∃ u, Unifier.unifyAll ⟨[], ∅⟩ (heads.zip patterns) = some u ∧ u.Holds row r) ∧
        ∀ v, Item.var v ∉ patterns → r.get? v = none := by
  rw [Solution.unifyAll_eq_some_iff (hlength.symm.trans hterms.length_eq),
    forall₂_iff_zip hterms hlength, Unifier.holds_unifyAll]
  simp [Unifier.holds_start]

/-- What has been found decides whether the instance matches, and gives the match. -/
theorem unifyAll_eq_some_iff_solution {u : Unifier}
    (hu : Unifier.unifyAll ⟨[], ∅⟩ (heads.zip patterns) = some u)
    (hlength : heads.length = patterns.length) (hbound : ∀ i ∈ heads, row.resolve i ≠ none)
    (hterms : List.Forall₂ (fun i t => row.resolve i = some t) heads terms) :
    Solution.unifyAll ∅ patterns terms = some r ↔
      satisfiesAll u.equalities (row.on heads) = true ∧
        r = (ofUnifier u).solution (row.on heads) := by
  have hcovers : u.Covers (heads.zip patterns) := Unifier.covers_start.unifyAll hu
  have hfst : (heads.zip patterns).map Prod.fst = heads := List.map_fst_zip hlength.le
  have hsnd : (heads.zip patterns).map Prod.snd = patterns := List.map_snd_zip hlength.ge
  -- the items that have been found denote the same in the part of the row for the head
  have hsame (i : Item) (hi : ∀ v, i = .var v → i ∈ heads) :
      (row.on heads).resolve i = row.resolve i ∧ row.resolve i ≠ none := by
    cases i with
    | term t => exact ⟨rfl, by simp⟩
    | var v => exact ⟨Solution.resolve_on (hi v rfl), hbound _ (hi v rfl)⟩
  have hleft (e : Item × Item) (he : e ∈ u.equalities) :=
    hsame e.1 fun v hv => hfst ▸ hv ▸ hcovers.equalities e he v (.inl hv)
  have hright (e : Item × Item) (he : e ∈ u.equalities) :=
    hsame e.2 fun v hv => hfst ▸ hv ▸ hcovers.equalities e he v (.inr hv)
  have hequal : satisfiesAll u.equalities (row.on heads) = true ↔
      ∀ e ∈ u.equalities, row.resolve e.1 = row.resolve e.2 := by
    rw [satisfiesAll_iff fun e he => ⟨(hleft e he).1 ▸ (hleft e he).2,
      (hright e he).1 ▸ (hright e he).2⟩]
    refine forall₂_congr fun e he => ?_
    rw [(hleft e he).1, (hright e he).1]
  have hsolution : (ofUnifier u).solution (row.on heads) = (ofUnifier u).solution row := by
    refine Solution.eq_of_get? fun v => ?_
    rw [get?_solution, get?_solution]
    cases hv : u.assigned.get? v with
    | none => rfl
    | some i => exact Solution.resolve_on (hfst ▸ hcovers.heads v i hv)
  have hdomain (v : Variable) : Item.var v ∉ patterns ↔ u.assigned.get? v = none := by
    rw [← hsnd, ← hcovers.patterns v, ← Option.ne_none_iff_exists', not_not]
  rw [unifyAll_eq_some_iff_holds hterms hlength, hu, hequal, hsolution, ← holds_iff_solution]
  simp only [Option.some.injEq, exists_eq_left', hdomain]

/-- A head without a common instance with a pattern has no instance that matches it. Otherwise the
operators of the specialization make of a row that binds the variables of the head just what the
pattern makes of the instance of the head, and nothing if the instance does not match. -/
theorem emitChain_unify (heads patterns : List Item) (hlength : heads.length = patterns.length)
    (row : Solution) (hbound : ∀ v ∈ Item.vars heads, row.contains v = true) :
    ∃ terms, heads.mapM row.resolve = some terms ∧
      match unify? heads patterns with
      | none => Solution.unifyAll ∅ patterns terms = none
      | some s => ∀ src id, Operator.emitChain src id (s.operators (Item.vars heads))
          [.solution row] = .ok ((Solution.unifyAll ∅ patterns terms).toList.map .solution) := by
  have hresolve (i : Item) (hi : i ∈ heads) : row.resolve i ≠ none := by
    cases i with
    | term t => simp
    | var v =>
        obtain ⟨t, ht⟩ := OrdMap.contains_iff.1 (hbound v (Item.mem_vars.2 hi))
        simp [ht]
  obtain ⟨terms, hmap, hterms⟩ := exists_instance hresolve
  refine ⟨terms, hmap, ?_⟩
  rw [unify?_eq]
  cases hu : Unifier.unifyAll ⟨[], ∅⟩ (heads.zip patterns) with
  | none =>
      refine Option.eq_none_iff_forall_ne_some.2 fun r hr => ?_
      obtain ⟨⟨u, hu', -⟩, -⟩ := (unifyAll_eq_some_iff_holds hterms hlength).1 hr
      rw [hu] at hu'
      cases hu'
  | some u =>
      intro src id
      have hsome (r : Solution) :=
        unifyAll_eq_some_iff_solution (r := r) hu hlength hresolve hterms
      change Operator.emitChain src id _ ([row].map .solution) = _
      rw [emitChain_operators]
      change Except.ok (((([row.on heads]).filter (satisfiesAll u.equalities)).map _).map _) = _
      cases hkeeps : satisfiesAll u.equalities (row.on heads) with
      | true =>
          rw [(hsome _).2 ⟨hkeeps, rfl⟩, List.filter_cons_of_pos hkeeps]
          rfl
      | false =>
          have hnone : Solution.unifyAll ∅ patterns terms = none := by
            refine Option.eq_none_iff_forall_ne_some.2 fun r hr => ?_
            rw [((hsome r).1 hr).1] at hkeeps
            cases hkeeps
          rw [hnone, List.filter_cons_of_neg (by simp [hkeeps])]
          rfl

/-- A head whose variables change places in the pattern. -/
def turnedHead : List Item := [.var ⟨"x"⟩, .term (.iri "p"), .var ⟨"y"⟩]

/-- The pattern that it is fitted to. -/
def turnedPattern : List Item := [.var ⟨"y"⟩, .var ⟨"q"⟩, .var ⟨"x"⟩]

theorem emitChain_unify_turned :
    let row : Solution := OrdMap.ofList [(⟨"x"⟩, .iri "a"), (⟨"y"⟩, .iri "b")]
    turnedHead.length = turnedPattern.length ∧
    (∀ v ∈ Item.vars turnedHead, row.contains v = true) ∧
    ∃ s, unify? turnedHead turnedPattern = some s ∧ ∀ src id,
      Operator.emitChain src id (s.operators (Item.vars turnedHead)) [.solution row] =
        .ok [.solution (OrdMap.ofList
          [(⟨"x"⟩, .iri "b"), (⟨"y"⟩, .iri "a"), (⟨"q"⟩, .iri "p")])] := by
  intro row
  have hbound : ∀ v ∈ Item.vars turnedHead, row.contains v = true := by
    change ∀ v ∈ (Item.vars turnedHead).toList, row.contains v = true
    decide
  obtain ⟨terms, hterms, h⟩ := emitChain_unify turnedHead turnedPattern rfl row hbound
  obtain rfl : [.iri "a", .iri "p", .iri "b"] = terms := by
    refine Option.some.inj (Eq.trans ?_ hterms)
    decide
  exact ⟨rfl, hbound, _, rfl, h⟩

end Match

end Specialization

end QuadAlgebra
