import QuadAlgebra.Proofs.Semantics.Bags
import QuadAlgebra.Proofs.Variables.Recasting

/-!
# Rows that agree

Rows that take different ways through two plans have to agree only as precisely as it matters in the
end: as bags where solutions are counted, as sets where duplicates are removed later on, and in
whether there are any rows at all where a question is answered (`Precision.Agree`). Most operators
make of operands that agree rows that agree as precisely; removing duplicates makes bags of sets
(`Operator.emit_agree`).
-/

namespace QuadAlgebra

open List (Perm Forall₂)

/-! ## Precisions -/

/-- What two lists have in common. -/
inductive Precision where
  /-- There is something in both, or in neither. -/
  | emptiness
  /-- The same elements are in both. -/
  | members
  /-- The same elements are in both, equally often. -/
  | bag

namespace Precision

/-- How much of a list matters: the more the higher. -/
def rank : Precision → Nat
  | emptiness => 0
  | members => 1
  | bag => 2

/-- Precisions are known by their ranks. -/
theorem rank_injective : Function.Injective rank := by
  intro p q h
  cases p <;> cases q <;> first | rfl | cases h

instance : LinearOrder Precision := LinearOrder.lift' rank rank_injective

/-- Precisions are compared by their ranks. -/
theorem le_iff {p q : Precision} : p ≤ q ↔ p.rank ≤ q.rank := Iff.rfl

/-- The lists have that much in common. -/
def Agree {α : Type} : Precision → List α → List α → Prop
  | emptiness, l, r => l = [] ↔ r = []
  | members, l, r => ∀ a, a ∈ l ↔ a ∈ r
  | bag, l, r => l.Perm r

end Precision

namespace Precision.Agree

variable {α β : Type} {p q : Precision} {l l' r r' m : List α}

/-- Every list agrees with itself. -/
theorem refl (p : Precision) (l : List α) : p.Agree l l := by
  cases p with
  | emptiness => exact Iff.rfl
  | members => exact fun _ => Iff.rfl
  | bag => exact Perm.refl l

theorem symm (h : p.Agree l r) : p.Agree r l := by
  cases p with
  | emptiness => exact Iff.symm h
  | members => exact fun a => (h a).symm
  | bag => exact Perm.symm h

/-- Agreement is handed on through a list in between. -/
theorem trans (h : p.Agree l m) (h' : p.Agree m r) : p.Agree l r := by
  cases p with
  | emptiness => exact Iff.trans h h'
  | members => exact fun a => (h a).trans (h' a)
  | bag => exact Perm.trans h h'

/-- The same elements as often are the same elements. -/
theorem members_of_bag (h : bag.Agree l r) : members.Agree l r := fun _ => Perm.mem_iff h

/-- With the same elements both lists are empty or none is. -/
theorem emptiness_of_members (h : members.Agree l r) : emptiness.Agree l r := by
  simp only [Agree, List.eq_nil_iff_forall_not_mem]
  exact forall_congr' fun a => not_congr (h a)

/-- What agrees to some precision agrees to any lower one. -/
theorem mono (h : q.Agree l r) (hle : p ≤ q) : p.Agree l r := by
  cases p <;> cases q <;> first
    | exact h
    | exact h.members_of_bag
    | exact h.emptiness_of_members
    | exact h.members_of_bag.emptiness_of_members
    | exact absurd (le_iff.1 hle) (by decide)

/-- Lists in another order agree as precisely as one likes. -/
theorem of_perm (p : Precision) (h : l.Perm r) : p.Agree l r :=
  mono (q := bag) h (by cases p <;> exact le_iff.2 (by decide))

/-- However little matters, both lists are empty or none is. -/
theorem isEmpty_eq (h : p.Agree l r) : l.isEmpty = r.isEmpty := by
  have hempty : emptiness.Agree l r := h.mono (le_iff.2 (Nat.zero_le _))
  rw [Bool.eq_iff_iff, List.isEmpty_iff, List.isEmpty_iff]
  exact hempty

theorem eq_nil_iff (h : p.Agree l r) : l = [] ↔ r = [] := by
  rw [← List.isEmpty_iff, ← List.isEmpty_iff, h.isEmpty_eq]

/-- What is made of each element agrees as precisely. -/
theorem map (h : p.Agree l r) (f : α → β) : p.Agree (l.map f) (r.map f) := by
  cases p with
  | emptiness => exact (List.map_eq_nil_iff.trans h).trans List.map_eq_nil_iff.symm
  | members => exact fun b => by simp only [List.mem_map, h _]
  | bag => exact Perm.map f h

/-- Lists that agree may be put together. -/
theorem append (h : p.Agree l r) (h' : p.Agree l' r') : p.Agree (l ++ l') (r ++ r') := by
  cases p with
  | emptiness =>
      simp only [Agree, List.append_eq_nil_iff]
      exact and_congr h h'
  | members => exact fun a => by rw [List.mem_append, List.mem_append, h, h']
  | bag => exact Perm.append h h'

/-- Lists for the same keys agree if they do so for each key. -/
theorem flatMap_left {ι : Type} (keys : List ι) {f g : ι → List α}
    (h : ∀ k ∈ keys, p.Agree (f k) (g k)) : p.Agree (keys.flatMap f) (keys.flatMap g) := by
  induction keys with
  | nil => exact refl p []
  | cons k rest ih =>
      exact append (h k List.mem_cons_self) (ih fun j hj => h j (List.mem_cons_of_mem _ hj))

/-- The same elements are in lists that agree in more than whether there are any. -/
theorem mem_iff (h : p.Agree l r) (hp : p ≠ .emptiness) : members.Agree l r :=
  h.mono (by cases p <;> first | exact absurd rfl hp | exact le_iff.2 (by decide))

/-- Which elements there are decides which are left without repetitions. -/
theorem distinctOf [BEq α] [LawfulBEq α] (h : p.Agree l r) (hp : p ≠ .emptiness) :
    bag.Agree (distinctOf l) (distinctOf r) := by
  refine (List.perm_ext_iff_of_nodup (nodup_distinctOf l) (nodup_distinctOf r)).2 fun a => ?_
  rw [mem_distinctOf, mem_distinctOf, h.mem_iff hp]

section Members

variable (hp : p ≠ .emptiness)

include hp

/-- Whatever is made of each element, with an agreement of its own. -/
theorem flatMap (h : p.Agree l r) {f g : α → List β} (hfg : ∀ a, p.Agree (f a) (g a)) :
    p.Agree (l.flatMap f) (r.flatMap g) := by
  cases p with
  | emptiness => exact absurd rfl hp
  | members =>
      intro b
      simp only [List.mem_flatMap]
      exact exists_congr fun a => and_congr (h a) (hfg a b)
  | bag => exact Perm.flatMap h fun a _ => hfg a

/-- What is made of some elements agrees, unless only emptiness matters. -/
theorem filterMap (h : p.Agree l r) (f : α → Option β) :
    p.Agree (l.filterMap f) (r.filterMap f) := by
  cases p with
  | emptiness => exact absurd rfl hp
  | members => exact fun b => by simp only [List.mem_filterMap, h _]
  | bag => exact Perm.filterMap f h

/-- To keep the same elements needs more than emptiness. -/
theorem filter (h : p.Agree l r) (f : α → Bool) : p.Agree (l.filter f) (r.filter f) := by
  cases p with
  | emptiness => exact absurd rfl hp
  | members => exact fun b => by simp only [List.mem_filter, h _]
  | bag => exact Perm.filter f h

/-- Whether some element satisfies a test is the same, unless only emptiness matters. -/
theorem any_eq (h : p.Agree l r) (f : α → Bool) : l.any f = r.any f := by
  rw [Bool.eq_iff_iff, List.any_eq_true, List.any_eq_true]
  exact exists_congr fun a => and_congr_left fun _ => h.mem_iff hp a

end Members

end Precision.Agree

/-! ## Combining solutions -/

section Solutions

variable {p : Precision} (hp : p ≠ .emptiness) {l l' r r' : List Solution}

include hp

/-- Joins of lists that agree agree. -/
theorem joinSolutions_agree (hl : p.Agree l l') (hr : p.Agree r r') :
    p.Agree (joinSolutions l r) (joinSolutions l' r') :=
  hl.flatMap hp fun _ => (hr.filter hp _).map _

/-- Joins of any number of lists that agree agree. -/
theorem joinAll_agree {found lists : List (List Solution)} (h : Forall₂ p.Agree found lists) :
    p.Agree (joinAll found) (joinAll lists) := by
  cases h with
  | nil => exact .refl p []
  | @cons rows rows' rest rest' hrows hrest =>
      simp only [joinAll]
      induction hrest generalizing rows rows' with
      | nil => exact hrows
      | cons hnext _ ih => exact ih (joinSolutions_agree hp hrows hnext)

/-- A left join looks for partners on the right only, and keeps the left. -/
theorem leftJoinSolutions_agree (hl : p.Agree l l') (hr : p.Agree r r') :
    p.Agree (leftJoinSolutions l r) (leftJoinSolutions l' r') := by
  refine hl.flatMap hp fun s => ?_
  have hextended := (hr.filter hp s.compatible).map s.merge
  dsimp only
  rw [hextended.isEmpty_eq]
  split
  · exact .refl p [s]
  · exact hextended

/-- What is subtracted matters by its elements. -/
theorem subtractSolutions_agree (hl : p.Agree l l') (hr : p.Agree r r') :
    p.Agree (subtractSolutions l r) (subtractSolutions l' r') := by
  unfold subtractSolutions
  simp only [hr.any_eq hp]
  exact hl.filter hp _

end Solutions

/-- What a template without blank nodes makes of a row does not depend on the number of the row. -/
theorem QuadPattern.instance?_congr {t : QuadPattern} (h : t.hasBlanks = false) (row : Solution)
    (m n : Nat) : t.instance? row m = t.instance? row n := by
  have hitem {i : Item} (hi : i ∈ t.triple.items) : i.instance? row m = i.instance? row n := by
    have hblank : i.isBlank = false := by
      simp only [hasBlanks, TriplePattern.hasBlanks, Bool.or_eq_false_iff, List.any_eq_false,
        Bool.not_eq_true] at h
      exact h.1 i hi
    unfold Item.instance?
    split
    · cases hblank
    · rfl
  unfold instance?
  dsimp only
  rw [hitem (by simp [TriplePattern.items]), hitem (i := t.triple.predicate)
    (by simp [TriplePattern.items]), hitem (i := t.triple.object) (by simp [TriplePattern.items])]

/-- The quads of templates without blank nodes, row by row. -/
theorem constructQuads_eq {template : List QuadPattern} (h : ∀ t ∈ template, t.hasBlanks = false)
    (rows : List Solution) :
    constructQuads template rows = rows.flatMap fun row =>
      template.filterMap (·.instance? row 0) := by
  have hrow (row : Solution) (n : Nat) :
      template.filterMap (·.instance? row n) = template.filterMap (·.instance? row 0) :=
    List.filterMap_congr fun t ht => QuadPattern.instance?_congr (h t ht) row n 0
  unfold constructQuads
  simp only [hrow]
  rw [← List.flatMap_map Prod.fst fun row => template.filterMap (·.instance? row 0),
    List.zipIdx_map_fst]

/-! ## Operands that agree -/

namespace Operands

variable {l r : Operands} {p : Precision}

/-- The same rows are on each operand, up to some precision. A missing operand has no rows. -/
def Agree (p : Precision) (l r : Operands) : Prop := ∀ k, p.Agree (l.on k) (r.on k)

/-- The rows on an operand of which there is one list. -/
theorem on_eq_of_mem {o : Nat × List Row} (hnodup : (l.map Prod.fst).Nodup) (ho : o ∈ l) :
    l.on o.1 = o.2 := by
  rw [on, lookup_of_mem_of_nodup hnodup (show (o.1, o.2) ∈ l from ho)]
  rfl

/-- No rows arrive on an operand that is not there. -/
theorem on_eq_nil {k : Nat} (hk : k ∉ l.map Prod.fst) : l.on k = [] := by
  rw [on]
  cases hlookup : l.lookup k with
  | none => rfl
  | some rows => exact absurd (List.mem_map_of_mem (lookup_mem hlookup)) hk

/-- All rows, operand by operand, for any list of operands that mentions all of those with rows. -/
theorem rows_perm (hnodup : (l.map Prod.fst).Nodup) {keys : List Nat} (hkeys : keys.Nodup)
    (hall : ∀ k ∈ l.map Prod.fst, k ∈ keys) : l.rows.Perm (keys.flatMap l.on) := by
  have hrows : l.rows = (l.map Prod.fst).flatMap l.on := by
    rw [rows, List.flatMap_map]
    exact List.flatMap_congr fun o ho => (on_eq_of_mem hnodup ho).symm
  have hfilter : ((keys.filter (· ∈ l.map Prod.fst)).flatMap l.on) = keys.flatMap l.on := by
    clear hkeys hall
    induction keys with
    | nil => rfl
    | cons k rest ih =>
        rw [List.filter_cons]
        split
        · rw [List.flatMap_cons, List.flatMap_cons, ih]
        · next hk => rw [List.flatMap_cons, ih, on_eq_nil (by simpa using hk), List.nil_append]
  rw [hrows, ← hfilter]
  refine Perm.flatMap_right _ ((List.perm_ext_iff_of_nodup hnodup (hkeys.filter _)).2 fun k => ?_)
  rw [List.mem_filter, decide_eq_true_iff]
  exact ⟨fun hk => ⟨hall k hk, hk⟩, fun hk => hk.2⟩

namespace Agree

variable (h : l.Agree p r) (hl : (l.map Prod.fst).Nodup) (hr : (r.map Prod.fst).Nodup)

include h hl hr

/-- Where rows agree on each operand they agree altogether. -/
theorem rows : p.Agree l.rows r.rows := by
  have hnodup := nodup_distinctOf (l.map Prod.fst ++ r.map Prod.fst)
  refine (Precision.Agree.of_perm p (rows_perm hl hnodup fun k hk => ?_)).trans
    ((Precision.Agree.flatMap_left _ fun k _ => h k).trans
      (Precision.Agree.of_perm p (rows_perm hr hnodup fun k hk => ?_).symm))
  · exact mem_distinctOf.2 (List.mem_append_left _ hk)
  · exact mem_distinctOf.2 (List.mem_append_right _ hk)

/-- Rows on all other operands agree, too. -/
theorem except (k : Nat) : p.Agree (l.except k) (r.except k) := by
  have hon (l : Operands) (j : Nat) :
      Operands.on (l.filter (·.1 != k)) j = if j = k then [] else l.on j := by
    unfold Operands.on
    induction l with
    | nil => simp
    | cons o rest ih =>
        rw [List.filter_cons]
        by_cases hk : o.1 = k
        · rw [if_neg (by simpa using hk), ih, List.lookup_cons, hk]
          split
          · rfl
          · next hne => rw [beq_false_of_ne hne]
        · rw [if_pos (by simpa using hk), List.lookup_cons, List.lookup_cons]
          by_cases hj : j = o.1
          · rw [hj, beq_self_eq_true, if_neg hk]
          · rw [beq_false_of_ne hj]
            exact ih
  have hnodup {l : Operands} (hl : (l.map Prod.fst).Nodup) :
      ((l.filter (·.1 != k)).map Prod.fst).Nodup := hl.sublist (List.filter_sublist.map _)
  refine Agree.rows (l := l.filter (·.1 != k)) (r := r.filter (·.1 != k)) (fun j => ?_)
    (hnodup hl) (hnodup hr)
  rw [hon, hon]
  split
  · exact .refl p []
  · exact h j

/-- The rows agree operand by operand if the operands are the same. -/
theorem forall₂ (hkeys : l.map Prod.fst = r.map Prod.fst) :
    Forall₂ (fun o o' => p.Agree o.2 o'.2) l r := by
  refine List.forall₂_iff_get.2 ⟨by simpa using congrArg List.length hkeys, fun n hn hn' => ?_⟩
  have hkey : l[n].1 = r[n].1 := by
    have hget := List.getElem_of_eq hkeys (i := n) (by simpa using hn)
    rwa [List.getElem_map, List.getElem_map] at hget
  have hon := h l[n].1
  rw [on_eq_of_mem hl (List.getElem_mem hn), hkey, on_eq_of_mem hr (List.getElem_mem hn')] at hon
  exact hon

end Agree

end Operands

/-! ## Operators that keep rows in agreement -/

namespace Operator

variable {γ δ : Type}

/-- The operator treats all rows alike: it neither cuts off nor numbers nor counts them. -/
def Steadfast : Operator γ → Prop
  | .limit _ | .offset _ | .group _ _ => False
  | .construct template => ∀ t ∈ template, t.hasBlanks = false
  | _ => True

@[simp] theorem steadfast_withNested (op : Operator γ) (nested : List (Nat × δ)) :
    (op.withNested nested).Steadfast ↔ op.Steadfast := by
  cases op <;> rfl

/-- If the operands agree as precisely as the operator demands, then what it emits agrees to the
precision. -/
def Bears (op : Operator γ) : Precision → Prop
  | .emptiness =>
    match op with
    | .result _ => True
    | .limit n => n ≠ 0
    | _ => False
  | _ => op.Steadfast

@[simp] theorem bears_withNested (op : Operator γ) (nested : List (Nat × δ)) (p : Precision) :
    (op.withNested nested).Bears p ↔ op.Bears p := by
  cases p <;> cases op <;> rfl

/-- The precision to which operands have to agree. -/
def demand (op : Operator γ) (p : Precision) : Precision :=
  match op with
  | .distinct | .indexDistinct => min p .members
  | _ => p

@[simp] theorem demand_withNested (op : Operator γ) (nested : List (Nat × δ)) (p : Precision) :
    (op.withNested nested).demand p = op.demand p := by
  cases op <;> rfl

/-- Only results and limits can do with knowing whether there are rows. -/
theorem Bears.ne_emptiness {op : Operator γ} {p : Precision} (h : op.Bears p)
    (hkind : op.kind ∉ [.result, .limit]) : p ≠ .emptiness := by
  rintro rfl
  cases op with
  | result form => exact hkind (by simp [kind])
  | limit n => exact hkind (by simp [kind])
  | _ => exact h

/-- An operator whose rows depend on the rows that it reads, and not on their order, works with any
precision but emptiness. -/
theorem Steadfast.bears {op : Operator γ} {p : Precision} (h : op.Steadfast) (hp : p ≠ .emptiness) :
    op.Bears p := by
  cases p with
  | emptiness => exact absurd rfl hp
  | _ => exact h

/-- Whatever does not remove duplicates demands the precision that it gives. -/
theorem demand_eq (op : Operator γ) (p : Precision) :
    op.demand p = if op.kind ∈ Operator.deduplicating then min p .members else p := by
  cases op with
  | command c => cases c <;> rfl
  | _ => rfl

/-- An operator may be put where another one was: it removes duplicates if that one does, and what
it emits is as precise. -/
structure Fills (op' : Operator γ) (op : Operator γ) : Prop where
  deduplicating : op'.kind ∈ Operator.deduplicating ↔ op.kind ∈ Operator.deduplicating
  bears : ∀ p, op.Bears p → op'.Bears p

theorem Fills.refl (op : Operator γ) : op.Fills op := ⟨Iff.rfl, fun _ => id⟩

/-- An operator with other plans nested in it may be put in its place. -/
theorem Like.fills {op' op : Operator γ} (h : op'.Like op) : op'.Fills op := by
  cases h with
  | same => exact .refl _
  | _ => exact ⟨by simp [kind, deduplicating], fun p => by cases p <;> exact id⟩

theorem Fills.demand {op' op : Operator γ} (h : op'.Fills op) (p : Precision) :
    op'.demand p = op.demand p := by
  rw [demand_eq, demand_eq]
  exact if_congr h.deduplicating rfl rfl

/-- Steadfast operators that do not remove duplicates stand for one another. -/
theorem Steadfast.fills {op' op : Operator γ} (h : op'.Steadfast)
    (hkind' : op'.kind ∉ Operator.deduplicating) (hkind : op.kind ∉ Operator.deduplicating)
    (hrow : op.kind ∉ [.result, .limit]) : op'.Fills op :=
  ⟨iff_of_false hkind' hkind, fun _ hp => h.bears (hp.ne_emptiness hrow)⟩

/-- An operator demands no more precision of its operands than is demanded of it. -/
theorem demand_le (op : Operator γ) (p : Precision) : op.demand p ≤ p := by
  unfold demand
  split
  · exact min_le_left _ _
  · exact min_le_left _ _
  · exact le_rfl

end Operator

section Emission

variable {p : Precision} {id : OperatorId} {l r : Operands}

/-- Rows of the wrong form are found wherever any are, so reading them fails alike. -/
theorem expectRows_agree {α : Type} {shape : RowShape} {read : Row → Option α}
    (hp : p ≠ .emptiness) {l r : List Row} (h : p.Agree l r) :
    OkRelated p.Agree (expectRows id shape read l) (expectRows id shape read r) := by
  have heq {rows : List Row} {as : List α} (hrows : expectRows id shape read rows = .ok as) :
      as = rows.filterMap read ∧ ∀ row ∈ rows, (read row).isSome = true := by
    have hall := forall₂_of_mapM_ok hrows
    clear hrows
    induction hall with
    | nil => exact ⟨rfl, fun _ h => absurd h List.not_mem_nil⟩
    | @cons row a rows as hrow _ ih =>
        have hread : read row = some a := by
          cases hread : read row with
          | none => simp [hread] at hrow
          | some b => simpa [hread] using hrow
        refine ⟨by rw [List.filterMap_cons_some hread, ← ih.1], fun row' hrow' => ?_⟩
        rcases List.mem_cons.1 hrow' with rfl | hrow'
        · rw [hread]
          rfl
        · exact ih.2 row' hrow'
  have hok {rows : List Row} (hrows : ∀ row ∈ rows, (read row).isSome = true) :
      expectRows id shape read rows = .ok (rows.filterMap read) := by
    unfold expectRows
    induction rows with
    | nil => rfl
    | cons row rest ih =>
        obtain ⟨a, ha⟩ := Option.isSome_iff_exists.1 (hrows row List.mem_cons_self)
        rw [List.mapM_cons, ih fun row' h => hrows row' (List.mem_cons_of_mem _ h), ha,
          List.filterMap_cons_some ha]
        rfl
  intro as has
  obtain ⟨rfl, hsome⟩ := heq has
  exact ⟨r.filterMap read, hok fun row hrow => hsome row ((h.mem_iff hp row).2 hrow),
    h.filterMap hp read⟩

theorem expectSolutions_agree (hp : p ≠ .emptiness) {l r : List Row} (h : p.Agree l r) :
    OkRelated p.Agree (expectSolutions id l) (expectSolutions id r) := expectRows_agree hp h

section Solutions

variable (hp : p ≠ .emptiness) (hl : (l.map Prod.fst).Nodup) (hr : (r.map Prod.fst).Nodup)
  (h : l.Agree p r)

include hp hl hr h

/-- What is made of the list of all solutions agrees. -/
theorem expectSolutions_map_agree {f : List Solution → List Row}
    (hf : ∀ l r : List Solution, p.Agree l r → p.Agree (f l) (f r)) :
    OkRelated p.Agree ((expectSolutions id l.rows).map f) ((expectSolutions id r.rows).map f) :=
  (expectSolutions_agree hp (h.rows hl hr)).map hf

/-- What is made of one operand and all others agrees. -/
theorem pairwise_agree {f : List Solution → List Solution → List Solution}
    (hf : ∀ {l l' r r' : List Solution}, p.Agree l l' → p.Agree r r' → p.Agree (f l r) (f l' r')) :
    OkRelated p.Agree (do
      let left ← expectSolutions id (l.on 0)
      let right ← expectSolutions id (l.except 0)
      return (f left right).map Row.solution) (do
      let left ← expectSolutions id (r.on 0)
      let right ← expectSolutions id (r.except 0)
      return (f left right).map Row.solution) :=
  (expectSolutions_agree hp (h 0)).bind fun _ _ hleft =>
    (expectSolutions_agree hp (h.except hl hr 0)).bind fun _ _ hright =>
      .ok ((hf hleft hright).map _)

end Solutions

/-- Where it only matters whether there are rows, results and limits have rows if they read rows. -/
theorem Operator.emit_agree_emptiness {op : Operator (Except Error (List Solution))}
    (hop : op.Bears .emptiness) (src : Source) (h : l.Agree (op.demand .emptiness) r)
    (hl : (l.map Prod.fst).Nodup) (hr : (r.map Prod.fst).Nodup) :
    OkRelated (Precision.emptiness).Agree (op.emit src id l) (op.emit src id r) := by
  cases op with
  | result form => exact .ok (h.rows hl hr)
  | limit n =>
      refine .ok ?_
      have hrows := (h.rows hl hr).eq_nil_iff
      simp only [Precision.Agree, List.take_eq_nil_iff, hrows]
  | _ => exact hop.elim

/-- Where operands agree as precisely as the operator demands, it succeeds if it did before, and
what it emits agrees. Only a join minds which operands there are. -/
theorem Operator.emit_agree {op : Operator (Except Error (List Solution))} (hop : op.Bears p)
    (src : Source) (h : l.Agree (op.demand p) r) (hl : (l.map Prod.fst).Nodup)
    (hr : (r.map Prod.fst).Nodup) (hjoin : op = .join → l.map Prod.fst = r.map Prod.fst) :
    OkRelated p.Agree (op.emit src id l) (op.emit src id r) := by
  by_cases hp : p = .emptiness
  · subst hp
    exact emit_agree_emptiness hop src h hl hr
  replace hop : op.Steadfast := by
    cases p with
    | emptiness => exact absurd rfl hp
    | _ => exact hop
  -- operators that map solutions, one after the other or all together
  have hsolutions (h : l.Agree p r) {f : List Solution → List Row}
      (hf : ∀ l r : List Solution, p.Agree l r → p.Agree (f l) (f r)) :
      OkRelated p.Agree ((expectSolutions id l.rows).map f) ((expectSolutions id r.rows).map f) :=
    expectSolutions_map_agree hp hl hr h hf
  have hsteps (h : l.Agree p r) {f : List Solution → List Solution}
      (hf : ∀ l r : List Solution, p.Agree l r → p.Agree (f l) (f r)) :=
    hsolutions h (f := fun rows => (f rows).map .solution) fun l r h => (hf l r h).map _
  cases op with
  | root => exact .ok (.refl p _)
  | result | union | window => exact .ok (h.rows hl hr)
  | distinct | indexDistinct =>
      have hmin : min p .members ≠ .emptiness := by
        cases p with
        | emptiness => exact absurd rfl hp
        | members | bag => decide
      exact .ok (.of_perm p ((h.rows hl hr).distinctOf hmin))
  | limit | offset | group => exact hop.elim
  | construct template =>
      refine hsolutions h fun l r hlr => ?_
      rw [constructQuads_eq hop, constructQuads_eq hop]
      exact (hlr.flatMap hp fun _ => .refl p _).map _
  | scan | probe => exact hsteps h fun _ _ hl => joinSolutions_agree hp hl (.refl p _)
  | join =>
      have hoperands : Forall₂ (fun o o' : Nat × List Row =>
          OkRelated p.Agree (expectSolutions id o.2) (expectSolutions id o'.2)) l r :=
        (h.forall₂ hl hr (hjoin rfl)).imp fun _ _ ho => expectSolutions_agree hp ho
      exact (okRelated_mapM hoperands).bind fun _ _ hlists => .ok ((joinAll_agree hp hlists).map _)
  | optional => exact pairwise_agree hp hl hr h (leftJoinSolutions_agree hp)
  | minus => exact pairwise_agree hp hl hr h (subtractSolutions_agree hp)
  | filter f =>
      refine (expectSolutions_agree hp (h.rows hl hr)).bind fun rows rows' hrows => ?_
      exact OkRelated.bind (R := Eq) (fun b hb => ⟨b, hb, rfl⟩) fun found found' he =>
        .ok (he ▸ (hrows.filter hp _).map _)
  | ruleFilter => exact hsteps h fun _ _ hl => hl.filter hp _
  | projection | bind | replaceVar => exact hsteps h fun _ _ hl => hl.map _
  | sort keys =>
      refine hsteps h fun l r hl => ?_
      have hsorted (rows : List Solution) := Precision.Agree.of_perm p
        (stableSort_perm (compareBy keys) rows)
      exact (hsorted l).trans (hl.trans (hsorted r).symm)
  | generate | constructAtom => exact hsolutions h fun _ _ hl => (hl.filterMap hp _).map _
  | matchTriple | matchAtom =>
      exact (expectRows_agree hp (h.rows hl hr)).bind fun _ _ hl => .ok ((hl.filterMap hp _).map _)
  | insert | delete => exact (expectRows_agree hp (h.rows hl hr)).map fun _ _ hqs => hqs.map _
  | command c =>
      refine .ok ?_
      rw [(h.rows hl hr).isEmpty_eq]
      exact .refl p _
  | service => exact fun _ h => nomatch h
  | describe resources =>
      refine hsolutions h fun l r hl => Precision.Agree.map ?_ _
      have hfound := (hl.flatMap hp fun row =>
        .refl p (resources.filterMap row.resolve)).distinctOf hp
      exact .of_perm p (Perm.flatMap hfound fun _ _ => .refl _)

end Emission

end QuadAlgebra
