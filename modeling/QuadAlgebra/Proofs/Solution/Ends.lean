import QuadAlgebra.Proofs.Solution.Join

/-!
# Solutions for the ends of relations

A relation between terms, put between two items, describes solutions: those that bind these items
to related terms, and bind nothing else (`Solution.Ends`). Several relations, each put between items
of its own, describe the parts of solutions that fit all of them (`Solution.Through`). The join of
lists, each with solutions for the ends of one relation, consists of such parts
(`fits_of_mem_joinMany`, `on_mem_joinMany`), so that a chain of relations that meet in fresh
variables becomes their composition (`Solution.through_eq_ends`).
-/

namespace QuadAlgebra

/-- A relation between the terms of two items. -/
structure Leg where
  start : Item
  stop : Item
  rel : Term → Term → Prop

def Leg.items (l : Leg) : List Item := [l.start, l.stop]

namespace Solution

variable {r s full : Solution} {items items' : List Item} {i o m : Item} {v : Variable} {a b : Term}
  {l : Leg} {legs : List Leg} {R : Term → Term → Prop}

/-! ## Fitting relations -/

/-- The ends of a relation are bound to related terms. -/
def Fits (r : Solution) (l : Leg) : Prop :=
  ∃ a b, r.resolve l.start = some a ∧ r.resolve l.stop = some b ∧ l.rel a b

theorem Fits.of_le (h : r.Fits l) (hle : ∀ v a, r.get? v = some a → s.get? v = some a) :
    s.Fits l := by
  obtain ⟨a, b, ha, hb, hab⟩ := h
  exact ⟨a, b, resolve_of_le hle ha, resolve_of_le hle hb, hab⟩

theorem fits_congr (h : ∀ i ∈ l.items, r.resolve i = s.resolve i) : r.Fits l ↔ s.Fits l := by
  unfold Fits
  rw [h l.start (by simp [Leg.items]), h l.stop (by simp [Leg.items])]

theorem fits_on (h : ∀ i ∈ l.items, i ∈ items) : (r.on items).Fits l ↔ r.Fits l :=
  fits_congr fun i hi => resolve_on (h i hi)

/-- The parts, for some items, of solutions that fit several relations. -/
def Through (legs : List Leg) (items : List Item) (r : Solution) : Prop :=
  ∃ full : Solution, (∀ l ∈ legs, full.Fits l) ∧ full.on items = r

/-- Parts of parts. -/
theorem through_on (h : ∀ i ∈ items', i ∈ items) :
    Through legs items' r ↔ ∃ full, Through legs items full ∧ full.on items' = r := by
  constructor
  · rintro ⟨full, hfits, rfl⟩
    exact ⟨full.on items, ⟨full, hfits, rfl⟩, on_on h⟩
  · rintro ⟨_, ⟨full, hfits, rfl⟩, rfl⟩
    exact ⟨full, hfits, (on_on h).symm⟩

/-- Solutions that bind two items to related terms, and nothing else. -/
def Ends (s o : Item) (R : Term → Term → Prop) : Solution → Prop := Through [⟨s, o, R⟩] [s, o]

theorem ends_iff {s o : Item} : Ends s o R r ↔ r.Fits ⟨s, o, R⟩ ∧ r.on [s, o] = r := by
  constructor
  · rintro ⟨full, hfits, rfl⟩
    exact ⟨(fits_on fun i hi => hi).2 (hfits _ List.mem_cons_self), on_on fun i hi => hi⟩
  · rintro ⟨hfits, hon⟩
    exact ⟨r, fun _ hl => List.mem_singleton.1 hl ▸ hfits, hon⟩

theorem ends_on {s o : Item} (h : full.Fits ⟨s, o, R⟩) : Ends s o R (full.on [s, o]) :=
  ⟨full, fun _ hl => List.mem_singleton.1 hl ▸ h, rfl⟩

theorem Ends.mono {s o : Item} {R' : Term → Term → Prop} (h : Ends s o R r)
    (hsub : ∀ a b, R a b → R' a b) : Ends s o R' r := by
  obtain ⟨⟨a, b, ha, hb, hab⟩, hon⟩ := ends_iff.1 h
  exact ends_iff.2 ⟨⟨a, b, ha, hb, hsub a b hab⟩, hon⟩

theorem ends_comm {s o : Item} : Ends s o R r ↔ Ends o s (flip R) r := by
  have hsame : r.on [s, o] = r.on [o, s] := by
    have hmem : ∀ v, Item.var v ∈ [s, o] ↔ Item.var v ∈ [o, s] := fun v => by simp [or_comm]
    refine eq_of_get? fun v => ?_
    rw [get?_on, get?_on]
    simp only [hmem]
  rw [ends_iff, ends_iff, hsame]
  refine and_congr_left fun _ => ⟨?_, ?_⟩
  · rintro ⟨a, b, ha, hb, hab⟩
    exact ⟨b, a, hb, ha, hab⟩
  · rintro ⟨b, a, hb, ha, hab⟩
    exact ⟨a, b, ha, hb, hab⟩

/-- Relations through which exactly the pairs of another relation can be extended have the
solutions for the ends of that relation. -/
theorem through_eq_ends {s o : Item}
    (hsound : ∀ full : Solution, (∀ l ∈ legs, full.Fits l) → full.Fits ⟨s, o, R⟩)
    (hcomplete : ∀ full : Solution, full.Fits ⟨s, o, R⟩ →
      ∃ full' : Solution, (∀ l ∈ legs, full'.Fits l) ∧ full'.on [s, o] = full.on [s, o]) :
    Through legs [s, o] = Ends s o R := by
  funext r
  refine propext ⟨?_, fun h => ?_⟩
  · rintro ⟨full, hfits, rfl⟩
    exact ends_on (hsound full hfits)
  · obtain ⟨hfits, hon⟩ := ends_iff.1 h
    obtain ⟨full, hall, hsame⟩ := hcomplete r hfits
    exact ⟨full, hall, hsame.trans hon⟩

end Solution

/-- The solutions for the ends of a relation. -/
def Leg.ends (l : Leg) : Solution → Prop := Solution.Ends l.start l.stop l.rel

/-! ## Joins of relations -/

section Joins

open Solution

variable {lists : List (List Solution)} {legs : List Leg} {r full : Solution}

/-- A solution of a join binds what its parts bind. -/
theorem le_of_mem_joinSolutions {l l' : List Solution} (h : r ∈ joinSolutions l l') :
    ∃ a ∈ l, ∃ b ∈ l', (∀ v t, a.get? v = some t → r.get? v = some t) ∧
      (∀ v t, b.get? v = some t → r.get? v = some t) ∧ a.merge b = r := by
  obtain ⟨a, ha, b, hb, hcompat, rfl⟩ := mem_joinSolutions.1 h
  refine ⟨a, ha, b, hb, fun v t hv => ?_, fun v t hv => ?_, rfl⟩
  · rw [get?_merge, hv]
    rfl
  · rw [merge_comm hcompat, get?_merge, hv]
    rfl

/-- A joined solution fits the relations of all parts, and binds nothing but their items. -/
theorem fits_of_mem_joinMany
    (h : List.Forall₂ (fun rows l => ∀ r ∈ rows, Leg.ends l r) lists legs)
    (hr : r ∈ joinMany lists) :
    (∀ l ∈ legs, r.Fits l) ∧ r.on (legs.flatMap Leg.items) = r := by
  induction h generalizing r with
  | nil =>
      rw [joinMany_nil, List.mem_singleton] at hr
      subst hr
      exact ⟨fun l hl => absurd hl List.not_mem_nil, eq_of_get? fun v => by rw [get?_on]; rfl⟩
  | @cons rows l lists legs hrows _ ih =>
      rw [joinMany_cons] at hr
      obtain ⟨a, ha, b, hb, hle, hle', rfl⟩ := le_of_mem_joinSolutions hr
      obtain ⟨hfits, hon⟩ := ends_iff.1 (hrows a ha)
      obtain ⟨hrest, hon'⟩ := ih hb
      refine ⟨fun k hk => ?_, eq_of_get? fun v => ?_⟩
      · rcases List.mem_cons.1 hk with rfl | hk
        · exact hfits.of_le hle
        · exact (hrest k hk).of_le hle'
      · rw [get?_on]
        split
        · rfl
        · next hv =>
          rw [List.flatMap_cons, List.mem_append, not_or] at hv
          rw [get?_merge, ← hon, ← hon', get?_on, get?_on, if_neg hv.2]
          have hnone : Item.var v ∉ [l.start, l.stop] := hv.1
          rw [if_neg hnone]
          rfl

/-- The parts of a solution can be joined. -/
theorem on_mem_joinMany (full : Solution)
    (h : List.Forall₂ (fun rows l => full.on (Leg.items l) ∈ rows) lists legs) :
    full.on (legs.flatMap Leg.items) ∈ joinMany lists := by
  induction h with
  | nil =>
      rw [joinMany_nil, List.mem_singleton]
      exact eq_of_get? fun v => by rw [get?_on]; rfl
  | cons hl _ ih =>
      rw [joinMany_cons, List.flatMap_cons, ← on_merge]
      exact mem_joinSolutions.2 ⟨_, hl, _, ih, on_compatible, rfl⟩

end Joins

end QuadAlgebra
