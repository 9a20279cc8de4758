import QuadAlgebra.Ordered.Set

/-!
# Finite ordered maps

A map is its entries in strictly ascending order of their keys, so two maps that answer
every look-up alike are equal (`OrdMap.ext_get?`).
-/

namespace QuadAlgebra

/-- The entries of a finite map, strictly ascending by key. -/
structure OrdMap (κ υ : Type) [Ord κ] where
  entries : List (κ × υ)
  ascending : entries.Pairwise fun a b => compare a.1 b.1 = .lt

namespace OrdMap

variable {κ υ ω : Type} [Ord κ]

/-- A map is determined by the ascending list of its entries. -/
theorem ext {m n : OrdMap κ υ} (h : m.entries = n.entries) : m = n := by
  cases m; cases n; cases h; rfl

instance [DecidableEq κ] [DecidableEq υ] : DecidableEq (OrdMap κ υ) := fun m n =>
  if h : m.entries = n.entries then isTrue (ext h) else isFalse fun e => h (e ▸ rfl)

/-- The map without entries. -/
def empty : OrdMap κ υ := ⟨[], .nil⟩

instance : EmptyCollection (OrdMap κ υ) := ⟨empty⟩
instance : Inhabited (OrdMap κ υ) := ⟨empty⟩

/-- Whether the map has no entries. -/
def isEmpty (m : OrdMap κ υ) : Bool := m.entries.isEmpty

/-- The number of entries. -/
def size (m : OrdMap κ υ) : Nat := m.entries.length

/-- The keys, in order. -/
def keys (m : OrdMap κ υ) : List κ := m.entries.map (·.1)

/-- The values, in the order of their keys. -/
def values (m : OrdMap κ υ) : List υ := m.entries.map (·.2)

/-- The set of the keys. -/
def keySet (m : OrdMap κ υ) : OrdSet κ :=
  ⟨m.keys, List.pairwise_map.2 m.ascending⟩

/-! ## Look-up -/

/-- The value of the first entry with the key. -/
def lookup [BEq κ] (k : κ) : List (κ × υ) → Option υ
  | [] => none
  | (k', v) :: rest => if k == k' then some v else lookup k rest

/-- The value of a key, if it has one. -/
def get? [BEq κ] (m : OrdMap κ υ) (k : κ) : Option υ := lookup k m.entries

/-- Whether the key has a value. -/
def contains [BEq κ] (m : OrdMap κ υ) (k : κ) : Bool := (m.get? k).isSome

/-! ## Insertion -/

/-- Gives a key a value; an earlier value of the key is replaced. -/
def insert [Std.TransOrd κ] (m : OrdMap κ υ) (k : κ) (v : υ) : OrdMap κ υ :=
  ⟨placeBy Prod.fst (k, v) m.entries, placeBy_ascending Prod.fst (k, v) m.ascending⟩

/-- Later entries of the list replace earlier ones with the same key. -/
def ofList [Std.TransOrd κ] (l : List (κ × υ)) : OrdMap κ υ :=
  l.foldl (fun m e => m.insert e.1 e.2) empty

/-- The map of one entry. -/
def singleton (k : κ) (v : υ) : OrdMap κ υ := ⟨[(k, v)], List.pairwise_singleton _ _⟩

/-! ## The other operations -/

/-- The entries that satisfy a test. -/
def filter (p : κ → υ → Bool) (m : OrdMap κ υ) : OrdMap κ υ :=
  ⟨m.entries.filter fun e => p e.1 e.2, m.ascending.filter _⟩

/-- Takes the entry of a key out. -/
def erase [BEq κ] (m : OrdMap κ υ) (k : κ) : OrdMap κ υ := m.filter fun k' _ => k' != k

/-! ## Look-up after insertion, and extensionality -/

section Lemmas

variable [DecidableEq κ] [Std.TransOrd κ] [Std.LawfulEqOrd κ]

/-- Placing an entry answers for its key and leaves the others. -/
theorem lookup_placeBy (k k' : κ) (v : υ) (l : List (κ × υ)) :
    lookup k' (placeBy Prod.fst (k, v) l) = if k' = k then some v else lookup k' l := by
  induction l with
  | nil => simp [placeBy, lookup]
  | cons b rest ih =>
    obtain ⟨c, w⟩ := b
    unfold placeBy
    split
    · simp [lookup]
    · next hk =>
      have := Std.LawfulEqCmp.eq_of_compare hk
      subst this
      by_cases h : k' = k <;> simp [lookup, h]
    · next hk =>
      have hne : k ≠ c := fun h => by simp [h] at hk
      by_cases h : k' = c
      · subst h
        simp [lookup, hne.symm]
      · simp [lookup, h, ih]

/-- An insertion answers for its key and leaves the others. -/
theorem get?_insert (m : OrdMap κ υ) (k k' : κ) (v : υ) :
    (m.insert k v).get? k' = if k' = k then some v else m.get? k' :=
  lookup_placeBy k k' v m.entries

omit [Std.TransOrd κ] in
/-- A key below all others has no value. -/
theorem lookup_eq_none {k : κ} {l : List (κ × υ)} (h : ∀ e ∈ l, compare k e.1 = .lt) :
    lookup k l = none := by
  induction l with
  | nil => rfl
  | cons b rest ih =>
    have hb := h b List.mem_cons_self
    have hne : k ≠ b.1 := fun e => by simp [e] at hb
    simp only [lookup, beq_iff_eq, hne, if_false]
    exact ih fun e he => h e (List.mem_cons_of_mem _ he)

/-- Ascending lists with the same look-ups are equal. -/
theorem eq_of_lookup_eq {l r : List (κ × υ)}
    (hl : l.Pairwise fun a b => compare a.1 b.1 = .lt)
    (hr : r.Pairwise fun a b => compare a.1 b.1 = .lt)
    (h : ∀ k, lookup k l = lookup k r) : l = r := by
  induction l generalizing r with
  | nil =>
    cases r with
    | nil => rfl
    | cons b rest => simpa [lookup] using h b.1
  | cons a left ih =>
    cases r with
    | nil => simpa [lookup] using h a.1
    | cons b right =>
      obtain ⟨ha, hleft⟩ := List.pairwise_cons.1 hl
      obtain ⟨hb, hright⟩ := List.pairwise_cons.1 hr
      have first : a.1 = b.1 := by
        cases hab : compare a.1 b.1 with
        | eq => exact Std.LawfulEqCmp.eq_of_compare hab
        | lt =>
          have := h a.1
          rw [lookup_eq_none (l := b :: right)] at this
          · simp [lookup] at this
          · intro e he
            rcases List.mem_cons.1 he with rfl | he
            · exact hab
            · exact Std.TransCmp.lt_trans hab (hb e he)
        | gt =>
          have hba := Std.OrientedCmp.lt_of_gt hab
          have := h b.1
          rw [lookup_eq_none (l := a :: left)] at this
          · simp [lookup] at this
          · intro e he
            rcases List.mem_cons.1 he with rfl | he
            · exact hba
            · exact Std.TransCmp.lt_trans hba (ha e he)
      have second : a.2 = b.2 := by
        have := h a.1
        simpa [lookup, first] using this
      have rest : left = right := by
        refine ih hleft hright fun k => ?_
        by_cases hk : k = a.1
        · rw [hk, lookup_eq_none ha, lookup_eq_none (first ▸ hb)]
        · have := h k
          simpa [lookup, hk, first ▸ hk] using this
      rw [rest, Prod.ext first second]

/-- Two maps that answer every look-up alike are equal. -/
theorem ext_get? {m n : OrdMap κ υ} (h : ∀ k, m.get? k = n.get? k) : m = n :=
  ext (eq_of_lookup_eq m.ascending n.ascending h)

end Lemmas

end OrdMap

end QuadAlgebra
