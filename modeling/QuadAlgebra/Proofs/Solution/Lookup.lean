import QuadAlgebra.Proofs.Ordered.Laws
import QuadAlgebra.Semantics.Operator

/-!
# Solutions by what they bind

A solution is known by what it answers for each variable, so every operation on solutions is
described here by look-ups: merging (`get?_merge`), restricting, taking the part for some items
(`get?_on`), and extending by items (`unifyAll_eq_some_iff`). Compatible solutions agree wherever
both answer (`compatible_iff`), which makes merging commutative and associative. What items make of
a solution is its merge with what they make of nothing (`unifyAll_eq_bind`), and so is a match of a
pattern (`TriplePattern.match?_eq_bind`). A renamed solution answers with what the sources of the
renaming had (`Renaming.get?_solution`).
-/

namespace QuadAlgebra

/-- The variables of some items are those that occur as items. -/
theorem Item.mem_vars {items : List Item} {v : Variable} :
    v ∈ Item.vars items ↔ Item.var v ∈ items := by
  rw [Item.vars, OrdSet.mem_ofList, List.mem_filterMap]
  constructor
  · rintro ⟨i, hi, hiv⟩
    cases i with
    | var w => cases hiv; exact hi
    | term c => cases hiv
  · exact fun hv => ⟨_, hv, rfl⟩

namespace Solution

variable {s t u r : Solution} {items items' : List Item} {i : Item} {v : Variable} {a b : Term}

/-- Two solutions with the same look-ups are equal. -/
theorem eq_of_get? (h : ∀ v, s.get? v = t.get? v) : s = t := OrdMap.ext_get? h

/-- A variable denotes what the solution answers for it. -/
@[simp] theorem resolve_var (s : Solution) (v : Variable) : s.resolve (.var v) = s.get? v := rfl

/-- A constant denotes itself. -/
@[simp] theorem resolve_term (s : Solution) (t : Term) : s.resolve (.term t) = some t := rfl

/-- A binding answers for its variable and leaves the others. -/
theorem get?_insert (s : Solution) (v w : Variable) (t : Term) :
    (s.insert v t).get? w = if w = v then some t else s.get? w := OrdMap.get?_insert s v w t

/-- A restricted solution answers for the variables it is restricted to. -/
theorem get?_restrict (s : Solution) (vars : VarSet) (v : Variable) :
    (s.restrict vars).get? v = if v ∈ vars then s.get? v else none := by
  rw [restrict, OrdMap.get?_filter]
  by_cases hv : v ∈ vars
  · rw [if_pos hv]
    cases s.get? v <;> simp [Option.filter, hv]
  · rw [if_neg hv]
    cases s.get? v <;> simp [Option.filter, hv]

/-! ## Compatible solutions -/

/-- Compatible solutions agree on every variable that both bind. -/
theorem compatible_iff :
    s.compatible t = true ↔ ∀ v a b, s.get? v = some a → t.get? v = some b → a = b := by
  rw [compatible, List.all_eq_true]
  constructor
  · intro h v a b ha hb
    have := h (v, a) (OrdMap.mem_entries_iff.2 ha)
    simpa [hb] using this
  · rintro h ⟨v, a⟩ hmem
    have ha : s.get? v = some a := OrdMap.mem_entries_iff.1 hmem
    cases hb : t.get? v with
    | none => rfl
    | some b => simpa using h v a b ha hb

/-- Compatibility is symmetric. -/
theorem compatible_comm : s.compatible t = t.compatible s := by
  rw [Bool.eq_iff_iff, compatible_iff, compatible_iff]
  exact ⟨fun h v a b ha hb => (h v b a hb ha).symm, fun h v a b ha hb => (h v b a hb ha).symm⟩

/-- The empty solution is compatible with every solution. -/
@[simp] theorem empty_compatible (s : Solution) : compatible ∅ s = true :=
  compatible_iff.2 fun v a b ha _ => by simp at ha

/-- Every solution is compatible with the empty one. -/
@[simp] theorem compatible_empty (s : Solution) : s.compatible ∅ = true := by
  rw [compatible_comm, empty_compatible]

/-! ## Merging -/

/-- Merging entries into a solution keeps what it answers and adds what it does not. -/
theorem get?_mergeEntries (l : List (Variable × Term)) (s : Solution) (v : Variable) :
    (l.foldl (fun m e => if m.contains e.1 then m else m.insert e.1 e.2) s).get? v =
      (s.get? v).or (OrdMap.lookup v l) := by
  induction l generalizing s with
  | nil => simp [OrdMap.lookup]
  | cons e rest ih =>
      obtain ⟨w, a⟩ := e
      rw [List.foldl_cons, ih]
      by_cases hw : s.contains w = true
      · rw [if_pos hw]
        obtain ⟨b, hb⟩ := OrdMap.contains_iff.1 hw
        by_cases hv : v = w
        · subst hv
          simp [hb]
        · simp [OrdMap.lookup, hv]
      · rw [if_neg hw, get?_insert]
        have hnone : s.get? w = none := by
          cases hs : s.get? w with
          | none => rfl
          | some b => exact absurd (OrdMap.contains_iff.2 ⟨b, hs⟩) hw
        by_cases hv : v = w
        · subst hv
          simp [OrdMap.lookup, hnone]
        · simp [OrdMap.lookup, hv]

/-- The first solution has precedence in a merge. -/
theorem get?_merge (s t : Solution) (v : Variable) :
    (s.merge t).get? v = (s.get? v).or (t.get? v) := get?_mergeEntries t.entries s v

/-- Merging into the empty solution gives the merged one. -/
@[simp] theorem empty_merge (s : Solution) : merge ∅ s = s :=
  eq_of_get? fun v => by rw [get?_merge]; rfl

/-- Merging in the empty solution changes nothing. -/
@[simp] theorem merge_empty (s : Solution) : s.merge ∅ = s :=
  eq_of_get? fun v => by rw [get?_merge]; simp

/-- Compatible solutions may be merged either way round. -/
theorem merge_comm (h : s.compatible t = true) : s.merge t = t.merge s := by
  refine eq_of_get? fun v => ?_
  rw [get?_merge, get?_merge]
  cases ha : s.get? v with
  | none => cases t.get? v <;> rfl
  | some a =>
      cases hb : t.get? v with
      | none => rfl
      | some b => simp [compatible_iff.1 h v a b ha hb]

/-- Merging is associative, compatible or not. -/
theorem merge_assoc (s t u : Solution) : (s.merge t).merge u = s.merge (t.merge u) :=
  eq_of_get? fun v => by simp only [get?_merge, Option.or_assoc]

/-- A merge of compatible solutions is compatible with what both are compatible with. -/
theorem merge_compatible_iff (h : s.compatible t = true) :
    (s.merge t).compatible u = true ↔ s.compatible u = true ∧ t.compatible u = true := by
  constructor
  · intro hu
    refine ⟨compatible_iff.2 fun v a b ha hb => ?_, compatible_iff.2 fun v a b ha hb => ?_⟩
    · exact compatible_iff.1 hu v a b (by rw [get?_merge, ha]; rfl) hb
    · rw [merge_comm h] at hu
      exact compatible_iff.1 hu v a b (by rw [get?_merge, ha]; rfl) hb
  · rintro ⟨hs, ht⟩
    refine compatible_iff.2 fun v a b ha hb => ?_
    rw [get?_merge, Option.or_eq_some_iff] at ha
    rcases ha with ha | ⟨-, ha⟩
    · exact compatible_iff.1 hs v a b ha hb
    · exact compatible_iff.1 ht v a b ha hb

/-! ## Parts of solutions -/

/-- The part of a solution that binds the variables among some items. -/
def on (r : Solution) (items : List Item) : Solution := r.restrict (Item.vars items)

/-- The part for some items answers for the variables among them. -/
theorem get?_on (r : Solution) (items : List Item) (v : Variable) :
    (r.on items).get? v = if Item.var v ∈ items then r.get? v else none := by
  rw [on, get?_restrict]
  simp only [Item.mem_vars]

/-- An item denotes in its part what it denotes in the whole solution. -/
theorem resolve_on (hi : i ∈ items) : (r.on items).resolve i = r.resolve i := by
  cases i with
  | term t => rfl
  | var v => rw [resolve_var, get?_on, if_pos hi, resolve_var]

/-- A part of a part is the part for the fewer items. -/
theorem on_on (h : ∀ i ∈ items', i ∈ items) : (r.on items).on items' = r.on items' := by
  refine eq_of_get? fun v => ?_
  rw [get?_on, get?_on, get?_on]
  split
  · next hv => rw [if_pos (h _ hv)]
  · rfl

/-- The part for some items depends on what these denote. -/
theorem on_congr (h : ∀ i ∈ items, r.resolve i = s.resolve i) : r.on items = s.on items := by
  refine eq_of_get? fun v => ?_
  rw [get?_on, get?_on]
  split
  · next hv => exact h _ hv
  · rfl

/-- A solution is its own part when it binds no other variable. -/
theorem on_eq_self_iff : r.on items = r ↔ ∀ v, Item.var v ∉ items → r.get? v = none := by
  constructor
  · intro h v hv
    rw [← h, get?_on, if_neg hv]
  · refine fun h => eq_of_get? fun v => ?_
    rw [get?_on]
    split
    · rfl
    · next hv => rw [h v hv]

/-- Two parts of a solution merge to the part for all their items. -/
theorem on_merge : (r.on items).merge (r.on items') = r.on (items ++ items') := by
  refine eq_of_get? fun v => ?_
  rw [get?_merge, get?_on, get?_on, get?_on]
  by_cases hv : Item.var v ∈ items <;> by_cases hv' : Item.var v ∈ items' <;> simp [hv, hv']

/-- Two parts of a solution are compatible. -/
theorem on_compatible : (r.on items).compatible (r.on items') = true := by
  refine compatible_iff.2 fun v a b ha hb => ?_
  rw [get?_on] at ha hb
  split at ha
  · split at hb
    · exact Option.some.inj (ha.symm.trans hb)
    · cases hb
  · cases ha

/-- A binding changes what no other item denotes. -/
theorem resolve_insert (h : i ≠ .var v) : Solution.resolve (r.insert v a) i = r.resolve i := by
  cases i with
  | term t => rfl
  | var w =>
      rw [resolve_var, resolve_var, get?_insert, if_neg]
      exact fun he => h (congrArg Item.var he)

/-- An item denotes the same in solutions that bind more. -/
theorem resolve_of_le (h : ∀ v a, r.get? v = some a → s.get? v = some a)
    (hi : r.resolve i = some a) : s.resolve i = some a := by
  cases i with
  | term t => exact hi
  | var v => exact h v a hi

/-! ## Extension by items -/

/-- Unifying an item that denotes a term succeeds with that term alone. -/
theorem unify_of_resolve (h : s.resolve i = some b) :
    s.unify i a = if b = a then some s else none := by
  cases i with
  | term c =>
      cases h
      rfl
  | var w =>
      rw [resolve_var] at h
      rw [unify, h]

/-- Unifying an unbound variable binds it. -/
theorem unify_of_unbound (h : s.get? v = none) : s.unify (.var v) a = some (s.insert v a) := by
  rw [unify, h]

/-- Unification extends a solution as little as possible so that the item denotes the term. -/
theorem unify_eq_some_iff :
    s.unify i a = some t ↔ t.resolve i = some a ∧
      (∀ v b, s.get? v = some b → t.get? v = some b) ∧
      ∀ v, s.get? v = none → i ≠ .var v → t.get? v = none := by
  cases hitem : s.resolve i with
  | some b =>
      rw [unify_of_resolve hitem]
      constructor
      · intro h
        obtain ⟨hb, hs⟩ := Option.ite_none_right_eq_some.1 h
        obtain rfl := Option.some.inj hs
        exact ⟨hb ▸ hitem, fun _ _ hv => hv, fun _ hv _ => hv⟩
      · rintro ⟨ha, hkeep, hnew⟩
        have hb : b = a := Option.some.inj ((resolve_of_le hkeep hitem).symm.trans ha)
        rw [if_pos hb, Option.some_inj]
        refine eq_of_get? fun v => ?_
        cases hv : s.get? v with
        | some c => rw [hkeep v c hv]
        | none =>
            rw [hnew v hv]
            rintro rfl
            rw [resolve_var, hv] at hitem
            cases hitem
  | none =>
      cases i with
      | term c => cases hitem
      | var w =>
          have hget : ∀ v, (s.insert w a).get? v = if v = w then some a else s.get? v :=
            fun v => get?_insert s w v a
          rw [unify_of_unbound hitem, Option.some_inj]
          constructor
          · rintro rfl
            refine ⟨by simp [hget], fun v b hv => ?_, fun v hv hne => ?_⟩
            · rw [hget, if_neg, hv]
              rintro rfl
              rw [resolve_var, hv] at hitem
              cases hitem
            · rw [hget, if_neg, hv]
              exact fun e => hne (by rw [e])
          · rintro ⟨ha, hkeep, hnew⟩
            refine eq_of_get? fun v => ?_
            rw [hget]
            split
            · next hv => rw [hv, ← ha, resolve_var]
            · next hv =>
                cases hs : s.get? v with
                | none => rw [hnew v hs fun e => hv (by cases e; rfl)]
                | some c => rw [hkeep v c hs]

/-- An item can be unified with what it denotes in a solution that binds more. -/
theorem exists_unify (hle : ∀ v b, s.get? v = some b → r.get? v = some b)
    (hr : r.resolve i = some a) :
    ∃ m, s.unify i a = some m ∧ ∀ v b, m.get? v = some b → r.get? v = some b := by
  cases hitem : s.resolve i with
  | some b =>
      have hb : b = a := Option.some.inj ((resolve_of_le hle hitem).symm.trans hr)
      exact ⟨s, by rw [unify_of_resolve hitem, if_pos hb], hle⟩
  | none =>
      cases i with
      | term c => cases hitem
      | var w =>
          refine ⟨s.insert w a, unify_of_unbound hitem, fun v b hv => ?_⟩
          rw [get?_insert] at hv
          split at hv
          · next h => rw [h, ← hv]; exact hr
          · exact hle v b hv

/-- Unification with one term for each item extends a solution as little as possible so that every
item denotes its term. -/
theorem unifyAll_eq_some_iff {items : List Item} {terms : List Term} :
    items.length = terms.length → (s.unifyAll items terms = some r ↔
      List.Forall₂ (fun i a => r.resolve i = some a) items terms ∧
      (∀ v b, s.get? v = some b → r.get? v = some b) ∧
      ∀ v, s.get? v = none → Item.var v ∉ items → r.get? v = none) := by
  induction items generalizing s terms with
  | nil =>
      intro hlength
      obtain rfl := List.length_eq_zero_iff.1 hlength.symm
      have hall : s.unifyAll [] [] = some s := rfl
      rw [hall, Option.some_inj]
      constructor
      · rintro rfl
        exact ⟨.nil, fun _ _ hv => hv, fun _ hv _ => hv⟩
      · rintro ⟨-, hkeep, hnew⟩
        refine eq_of_get? fun v => ?_
        cases hv : s.get? v with
        | some b => rw [hkeep v b hv]
        | none => rw [hnew v hv List.not_mem_nil]
  | cons i rest ih =>
      intro hlength
      obtain ⟨a, terms, rfl⟩ := List.exists_cons_of_length_eq_add_one hlength.symm
      have hrest := Nat.add_right_cancel hlength
      rw [unifyAll, Option.bind_eq_some_iff]
      constructor
      · rintro ⟨m, hm, hr⟩
        obtain ⟨hi, hkeep, hnew⟩ := unify_eq_some_iff.1 hm
        obtain ⟨hall, hkeep', hnew'⟩ := (ih hrest).1 hr
        refine ⟨.cons (resolve_of_le hkeep' hi) hall, fun v b hv => hkeep' v b (hkeep v b hv),
          fun v hv hnot => ?_⟩
        rw [List.mem_cons, not_or] at hnot
        exact hnew' v (hnew v hv (Ne.symm hnot.1)) hnot.2
      · rintro ⟨hall, hkeep, hnew⟩
        obtain ⟨hi, hall⟩ := List.forall₂_cons.1 hall
        obtain ⟨m, hm, hle⟩ := exists_unify hkeep hi
        obtain ⟨hmi, hup, -⟩ := unify_eq_some_iff.1 hm
        refine ⟨m, hm, (ih hrest).2 ⟨hall, hle, fun v hv hnot => ?_⟩⟩
        -- what the step left unbound was unbound before it and is not its i
        refine hnew v ?_ (List.not_mem_cons_of_ne_of_not_mem ?_ hnot)
        · by_contra hs
          obtain ⟨b, hb⟩ := Option.ne_none_iff_exists'.1 hs
          rw [hup v b hb] at hv
          cases hv
        · rintro rfl
          rw [resolve_var, hv] at hmi
          cases hmi

/-- Extending a solution by items is merging it with what the items make of nothing, where that is
compatible. -/
theorem unifyAll_eq_bind {items : List Item} {terms : List Term}
    (hlength : items.length = terms.length) (s : Solution) :
    s.unifyAll items terms = (unifyAll ∅ items terms).bind fun m =>
      if s.compatible m = true then some (s.merge m) else none := by
  apply Option.ext
  intro r
  rw [Option.bind_eq_some_iff]
  constructor
  · intro h
    obtain ⟨hall, hkeep, hnew⟩ := (unifyAll_eq_some_iff hlength).1 h
    -- what the items make of nothing is the part of the result that binds them
    have hpart : unifyAll ∅ items terms = some (r.on items) := by
      refine (unifyAll_eq_some_iff hlength).2 ⟨?_, fun v b hv => by simp at hv, fun v _ hnot => ?_⟩
      · have hmem := (List.forall₂_and_left items terms).2 ⟨fun _ hi => hi, hall⟩
        exact hmem.imp fun i a hi => (resolve_on hi.1).trans hi.2
      · rw [get?_on, if_neg hnot]
    have hcompat : s.compatible (r.on items) = true := by
      refine compatible_iff.2 fun v a b ha hb => ?_
      rw [get?_on, Option.ite_none_right_eq_some, hkeep v a ha] at hb
      exact Option.some.inj hb.2
    refine ⟨r.on items, hpart, ?_⟩
    rw [if_pos hcompat, Option.some_inj]
    refine eq_of_get? fun v => ?_
    rw [get?_merge, get?_on]
    cases hs : s.get? v with
    | some b => rw [hkeep v b hs, Option.some_or]
    | none =>
        rw [Option.none_or]
        split
        · rfl
        · next hnot => rw [hnew v hs hnot]
  · rintro ⟨m, hm, hr⟩
    obtain ⟨hall, -, hnew⟩ := (unifyAll_eq_some_iff hlength).1 hm
    obtain ⟨hcompat, hr⟩ := Option.ite_none_right_eq_some.1 hr
    obtain rfl := Option.some.inj hr
    have hup : ∀ v b, m.get? v = some b → (s.merge m).get? v = some b := fun v b hb => by
      rw [merge_comm hcompat, get?_merge, hb, Option.some_or]
    refine (unifyAll_eq_some_iff hlength).2 ⟨?_, fun v b hb => ?_, fun v hs hnot => ?_⟩
    · exact hall.imp fun i a hi => resolve_of_le hup hi
    · rw [get?_merge, hb, Option.some_or]
    · rw [get?_merge, hs, hnew v rfl hnot, Option.or_none]

end Solution

/-! ## Matches of triple patterns -/

namespace TriplePattern

/-- Matching a pattern unifies its items with the terms of the triple, in order. -/
theorem match?_eq_unifyAll (p : TriplePattern) (t : Triple) (s : Solution) :
    p.match? t s = s.unifyAll p.items [t.subject, t.predicate, t.object] := by
  simp [match?, items, Solution.unifyAll]

/-- What a match of a pattern binds: each item denotes its part of the triple, what was bound stays
as it was, and nothing but variables of the pattern is new. -/
theorem match?_eq_some_iff {p : TriplePattern} {t : Triple} {s r : Solution} :
    p.match? t s = some r ↔
      (r.resolve p.subject = some t.subject ∧ r.resolve p.predicate = some t.predicate ∧
        r.resolve p.object = some t.object) ∧
      (∀ v b, s.get? v = some b → r.get? v = some b) ∧
      ∀ v, s.get? v = none → Item.var v ∉ p.items → r.get? v = none := by
  rw [match?_eq_unifyAll, Solution.unifyAll_eq_some_iff rfl]
  simp [items]

/-- A match from some solution is a match from nothing that is compatible with the solution. -/
theorem match?_eq_bind (p : TriplePattern) (t : Triple) (s : Solution) :
    p.match? t s = (p.match? t ∅).bind fun m =>
      if s.compatible m = true then some (s.merge m) else none := by
  rw [match?_eq_unifyAll, match?_eq_unifyAll]
  exact Solution.unifyAll_eq_bind rfl s

end TriplePattern

/-! ## Renamed solutions -/

/-- A target has the value of its source, a source that is no target has none, and all others keep
theirs. -/
theorem Renaming.get?_solution (r : Renaming) (s : Solution) (v : Variable) :
    (r.solution s).get? v = (r.get? v).elim (if v ∈ r.values then none else s.get? v) s.get? := by
  have hstart : (r.get? v).elim (if v ∈ r.values then none else s.get? v) s.get? =
      (OrdMap.lookup v r.entries).elim ((s.filter fun v _ => r.keeps v).get? v) s.get? := by
    change (r.get? v).elim _ _ = (r.get? v).elim _ _
    cases hv : r.get? v with
    | some source => rfl
    | none =>
        rw [Option.elim_none, Option.elim_none, OrdMap.get?_filter, keeps, OrdMap.contains, hv]
        by_cases hmem : v ∈ r.values
        · cases s.get? v <;> simp [hmem, Option.filter]
        · cases s.get? v <;> simp [hmem, Option.filter]
  rw [hstart, solution]
  have hascending := r.ascending
  -- what the entries so far have made of the solution
  generalize (s.filter fun v _ => r.keeps v) = out
  generalize r.entries = entries at hascending ⊢
  induction entries generalizing out with
  | nil => rfl
  | cons e rest ih =>
      obtain ⟨target, source⟩ := e
      obtain ⟨hfirst, hrest⟩ := List.pairwise_cons.1 hascending
      rw [List.foldl_cons, ih _ hrest, OrdMap.lookup]
      by_cases hv : v = target
      · subst hv
        rw [OrdMap.lookup_eq_none hfirst]
        cases hs : s.get? source <;> simp [hs, Solution.get?_insert, OrdMap.get?_erase]
      · cases hs : s.get? source <;> simp [hs, Solution.get?_insert, OrdMap.get?_erase, hv]

end QuadAlgebra
