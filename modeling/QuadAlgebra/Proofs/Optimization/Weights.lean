import Mathlib.Data.Finset.Card
import Mathlib.Data.Multiset.DershowitzManna
import QuadAlgebra.Proofs.Optimization.Heights

/-!
# Weights

Every reduction makes a graph lighter (`Graph.Reduction.exists_lighter`). The weight of a graph
consists of the heights of its filters, the number of its operators, and the number of operators for
which there is a more special kind. A filter that moves becomes several filters, but all of them
stand below the place that it came from, so the first part gets smaller as a multiset; other
reductions remove operators, or specialize one.
-/

namespace QuadAlgebra

/-! ## Multisets of heights -/

section Multisets

variable {α : Type} [DecidableEq α] {A A' : Finset α} {height height' : α → Nat}

/-- Elements may be replaced by any number of lower ones. -/
theorem isDershowitzMannaLT_map (hsame : ∀ x ∈ A', x ∈ A → height' x = height x)
    (hnew : ∀ x ∈ A', x ∉ A → ∃ y ∈ A, y ∉ A' ∧ height' x < height y)
    (hgone : ∃ y ∈ A, y ∉ A') :
    Multiset.IsDershowitzMannaLT (A'.val.map height') (A.val.map height) := by
  have hkept : (A'.filter (· ∈ A)).val.map height' = (A.filter (· ∈ A')).val.map height := by
    have heq : A'.filter (· ∈ A) = A.filter (· ∈ A') := by
      ext x
      simp [and_comm]
    rw [heq]
    refine Multiset.map_congr rfl fun x hx => ?_
    obtain ⟨hx, hx'⟩ := Finset.mem_filter.1 hx
    exact hsame x hx' hx
  refine ⟨(A.filter (· ∈ A')).val.map height, (A'.filter (· ∉ A)).val.map height',
    (A.filter (· ∉ A')).val.map height, ?_, ?_, ?_, ?_⟩
  · obtain ⟨y, hy, hy'⟩ := hgone
    have hmem : y ∈ (A.filter (· ∉ A')).val := Finset.mem_filter.2 ⟨hy, hy'⟩
    exact fun hnil => Multiset.notMem_zero _ (hnil ▸ Multiset.mem_map_of_mem height hmem)
  · rw [← hkept, ← Multiset.map_add]
    exact congrArg _ (Multiset.filter_add_not _ _).symm
  · rw [← Multiset.map_add]
    exact congrArg _ (Multiset.filter_add_not _ _).symm
  · intro n hn
    obtain ⟨x, hx, rfl⟩ := Multiset.mem_map.1 hn
    obtain ⟨hx, hx'⟩ := Finset.mem_filter.1 hx
    obtain ⟨y, hy, hy', hlt⟩ := hnew x hx hx'
    exact ⟨height y, Multiset.mem_map_of_mem _ (Finset.mem_filter.2 ⟨hy, hy'⟩), hlt⟩

end Multisets

namespace Graph

variable {γ : Type} {g g' : Graph γ} {provesEmpty : IndexScan → Bool} {u below x : OperatorId}
  {i : Input} {op : Operator γ} {height height' : OperatorId → Nat} {kinds : List Kind}

/-! ## Weights -/

def live (g : Graph γ) : Finset OperatorId :=
  (Finset.range g.slots.length).filter fun x => (g.operator? x).isSome

/-- The operators of some kinds. -/
def having (g : Graph γ) (kinds : List Kind) : Finset OperatorId :=
  g.live.filter fun x => (g.operator? x).any fun op => kinds.contains op.kind

theorem mem_live : x ∈ g.live ↔ ∃ op, g.operator? x = some op := by
  rw [live, Finset.mem_filter, Finset.mem_range, Option.isSome_iff_exists]
  refine and_iff_right_of_imp fun ⟨op, hop⟩ => ?_
  by_contra hlt
  rw [operator?, node?_eq_none (Nat.le_of_not_lt hlt)] at hop
  cases hop

theorem mem_having : x ∈ g.having kinds ↔ ∃ op, g.operator? x = some op ∧ op.kind ∈ kinds := by
  rw [having, Finset.mem_filter, mem_live]
  constructor
  · rintro ⟨⟨op, hop⟩, hkind⟩
    rw [hop] at hkind
    exact ⟨op, hop, by simpa using hkind⟩
  · rintro ⟨op, hop, hkind⟩
    exact ⟨⟨op, hop⟩, by rw [hop]; simpa using hkind⟩

abbrev Weight := Multiset Nat × Nat × Nat

/-- The kinds that have more special variants. -/
def generalKinds : List Kind := [.filter, .distinct]

def weight (g : Graph γ) (height : OperatorId → Nat) : Weight :=
  ((g.having filterKinds).val.map height, g.live.card, (g.having generalKinds).card)

def Lighter : Weight → Weight → Prop :=
  Prod.Lex Multiset.IsDershowitzMannaLT (Prod.Lex (· < ·) (· < ·))

theorem wellFounded_lighter : WellFounded Lighter :=
  Multiset.wellFounded_isDershowitzMannaLT.prod_lex (Nat.lt_wfRel.wf.prod_lex Nat.lt_wfRel.wf)

/-- A graph is lighter if only lower filters are new, and a filter is gone, or there are fewer
operators, or there are no more operators than before and fewer of the general kinds. -/
theorem lighter_of (hsame : ∀ x < g.slots.length, height' x = height x)
    (hnew : ∀ x ∈ g'.having filterKinds, x ∉ g.having filterKinds →
      ∃ y ∈ g.having filterKinds, y ∉ g'.having filterKinds ∧ height' x < height y)
    (hless : (∃ y ∈ g.having filterKinds, y ∉ g'.having filterKinds) ∨
      g'.live.card < g.live.card ∨
        g'.live = g.live ∧ (g'.having generalKinds).card < (g.having generalKinds).card) :
    Lighter (g'.weight height') (g.weight height) := by
  have hsame' : ∀ x ∈ g'.having filterKinds, x ∈ g.having filterKinds → height' x = height x :=
    fun x _ hx => by
      obtain ⟨op, hop, -⟩ := mem_having.1 hx
      exact hsame x (lt_of_operator? hop)
  by_cases hgone : ∃ y ∈ g.having filterKinds, y ∉ g'.having filterKinds
  · exact .left _ _ (isDershowitzMannaLT_map hsame' hnew hgone)
  · -- the filters are the same
    have hfilters : g'.having filterKinds = g.having filterKinds := by
      push Not at hgone
      refine Finset.Subset.antisymm (fun x hx => ?_) hgone
      by_contra hx'
      obtain ⟨y, hy, hy', -⟩ := hnew x hx hx'
      exact hy' (hgone y hy)
    have hheights : (g'.having filterKinds).val.map height' =
        (g.having filterKinds).val.map height := by
      rw [hfilters]
      exact Multiset.map_congr rfl fun x hx => hsame' x (hfilters ▸ hx) hx
    unfold weight
    rw [hheights]
    refine .right _ ?_
    rcases (hless.resolve_left hgone) with hlive | ⟨hlive, hgeneral⟩
    · exact .left _ _ hlive
    · rw [hlive]
      exact .right _ hgeneral

/-- A change that removes operators and adds no filters. -/
theorem lighter_of_removed (hsame : ∀ x < g.slots.length, height' x = height x)
    (hfilters : ∀ x op, g'.operator? x = some op → op.kind ∈ filterKinds →
      ∃ op', g.operator? x = some op' ∧ op'.kind ∈ filterKinds)
    (hless : g'.live.card < g.live.card) : Lighter (g'.weight height') (g.weight height) := by
  refine lighter_of hsame (fun x hx hx' => absurd (mem_having.2 ?_) hx') (.inr (.inl hless))
  obtain ⟨op, hop, hkind⟩ := mem_having.1 hx
  exact hfilters x op hop hkind

/-- There are fewer operators if one is removed and none is added. -/
theorem card_live_lt (hlive : ∀ x op, g'.operator? x = some op → ∃ op', g.operator? x = some op')
    (hu : g.operator? u = some op) (hu' : g'.operator? u = none) :
    g'.live.card < g.live.card := by
  refine Finset.card_lt_card ⟨fun x hx => ?_, fun hsub => ?_⟩
  · obtain ⟨op', hop'⟩ := mem_live.1 hx
    exact mem_live.2 (hlive x op' hop')
  · obtain ⟨op', hop'⟩ := mem_live.1 (hsub (mem_live.2 ⟨op, hu⟩))
    rw [hu'] at hop'
    cases hop'

/-- A graph gets lighter where an operator is gone and those that are left keep their kinds. -/
theorem lighter_of_gone (hkept : ∀ x op, g'.operator? x = some op →
      ∃ op', g.operator? x = some op' ∧ op'.kind = op.kind)
    (hu : g.operator? u = some op) (hu' : g'.operator? u = none) :
    Lighter (g'.weight height) (g.weight height) := by
  refine lighter_of_removed (fun _ _ => rfl) (fun x op hop hkind => ?_)
    (card_live_lt (fun x op hop => ?_) hu hu')
  · obtain ⟨op', hop', hkind'⟩ := hkept x op hop
    exact ⟨op', hop', hkind' ▸ hkind⟩
  · obtain ⟨op', hop', -⟩ := hkept x op hop
    exact ⟨op', hop'⟩

end Graph

theorem Slopes.of_wired {γ : Type} {g : Graph γ} {size : Nat}
    {ops : OperatorId → Option (Operator γ)} {reads : OperatorId → Input → Prop}
    {height : OperatorId → Nat} (hwired : g.Wired size ops reads) (h : Slopes ops reads height) :
    Slopes g.operator? g.Reads height :=
  h.thinned (fun x _ _ => by rw [hwired.operator?]; exact id) fun x i => (hwired.reads x i).1

namespace Graph

variable {γ : Type} {g g' : Graph γ} {provesEmpty : IndexScan → Bool} {u : OperatorId}
  {op op' : Operator γ} {height : OperatorId → Nat}

/-- A change of one operator that reads what it has read. -/
theorem lighter_of_specialized (k k' : Kind) (hop : g.operator? u = some op) (hk : op.kind = k)
    (hk' : op'.kind = k') (hgeneral : k ∈ generalKinds) (hspecial : k' ∉ generalKinds)
    (hfilters : k' ∈ filterKinds ↔ k ∈ filterKinds)
    (hwired : g'.Wired g.slots.length
      (fun x => if x = u then some op' else g.operator? x) g.Reads) :
    Lighter (g'.weight height) (g.weight height) := by
  subst hk hk'
  have hu : g'.operator? u = some op' := (hwired.operator? u).trans (if_pos rfl)
  have hother {x : OperatorId} (hx : x ≠ u) : g'.operator? x = g.operator? x :=
    (hwired.operator? x).trans (if_neg hx)
  have hlive : g'.live = g.live := by
    ext x
    rw [mem_live, mem_live]
    by_cases hx : x = u
    · rw [hx, hu, hop]
      simp
    · rw [hother hx]
  have hfilter (x : OperatorId) : x ∈ g'.having filterKinds ↔ x ∈ g.having filterKinds := by
    rw [mem_having, mem_having]
    by_cases hx : x = u
    · rw [hx, hu, hop]
      simpa using hfilters
    · rw [hother hx]
  refine lighter_of (fun _ _ => rfl) (fun x hx hx' => absurd ((hfilter x).1 hx) hx')
    (.inr (.inr ⟨hlive, Finset.card_lt_card ⟨fun x hx => ?_, fun hsub => ?_⟩⟩))
  · have hx' : x ≠ u := by
      rintro rfl
      obtain ⟨op₁, hop₁, hkind⟩ := mem_having.1 hx
      exact hspecial (Option.some.inj (hop₁.symm.trans hu) ▸ hkind)
    rwa [mem_having, ← hother hx', ← mem_having]
  · obtain ⟨op₁, hop₁, hkind⟩ := mem_having.1 (hsub (mem_having.2 ⟨op, hop, hgeneral⟩))
    exact hspecial (Option.some.inj (hop₁.symm.trans hu) ▸ hkind)

/-- Copies of a filter take its place. -/
theorem lighter_of_copied {n : Nat} {height' : OperatorId → Nat}
    (hop : g.operator? u = some op) (hkind : op.kind ∈ filterKinds)
    (hsame : ∀ x < g.slots.length, height' x = height x)
    (hlower : ∀ x, g.slots.length ≤ x → x < g.slots.length + n → height' x < height u)
    (hops : ∀ x, g'.operator? x = if x = u then none
      else withCopies g.operator? g.slots.length n op x) :
    Lighter (g'.weight height') (g.weight height) := by
  have hu : u ∈ g.having filterKinds := mem_having.2 ⟨op, hop, hkind⟩
  have hu' : u ∉ g'.having filterKinds := fun hmem => by
    obtain ⟨op', hop', -⟩ := mem_having.1 hmem
    rw [hops, if_pos rfl] at hop'
    cases hop'
  refine lighter_of hsame (fun x hx hx' => ⟨u, hu, hu', ?_⟩) (.inl ⟨u, hu, hu'⟩)
  obtain ⟨op', hop', hkind'⟩ := mem_having.1 hx
  rw [hops] at hop'
  split at hop'
  · cases hop'
  · unfold withCopies at hop'
    split at hop'
    · next hnew => exact hlower x hnew.1 hnew.2
    · exact absurd (mem_having.2 ⟨op', hop', hkind'⟩) hx'

/-- One scan takes the place of at least three operators. -/
theorem MergeSite.card_live_lt {inputs : List Input} {scans : List IndexScan} {scan : IndexScan}
    {reads : OperatorId → Input → Prop} (hsite : g.MergeSite u inputs scans)
    (hwired : g'.Wired (g.slots.length + 1)
      (fun x => if x = u ∨ x ∈ inputs.map Input.source then none
        else if x = g.slots.length then some (.scan scan) else g.operator? x) reads) :
    g'.live.card < g.live.card := by
  obtain ⟨j, hj⟩ := List.exists_mem_of_length_pos (Nat.lt_of_lt_of_le Nat.two_pos hsite.many)
  obtain ⟨s, hs⟩ := hsite.exists_scan hj
  have hne : j.source ≠ u := by
    rintro he
    rw [he, hsite.join] at hs
    cases hs
  have hu : u ∈ g.live := mem_live.2 ⟨_, hsite.join⟩
  have hj' : j.source ∈ g.live.erase u := Finset.mem_erase.2 ⟨hne, mem_live.2 ⟨_, hs⟩⟩
  have hsub : g'.live ⊆ insert g.slots.length ((g.live.erase u).erase j.source) := fun x hx => by
    obtain ⟨op, hop⟩ := mem_live.1 hx
    rw [hwired.operator?] at hop
    split at hop
    · cases hop
    · next hstays =>
      rw [not_or] at hstays
      split at hop
      · next hx => exact hx ▸ Finset.mem_insert_self _ _
      · refine Finset.mem_insert_of_mem (Finset.mem_erase.2 ⟨?_, Finset.mem_erase.2
          ⟨hstays.1, mem_live.2 ⟨op, hop⟩⟩⟩)
        rintro rfl
        exact hstays.2 (List.mem_map.2 ⟨j, hj, rfl⟩)
  have hcard := (Finset.card_le_card hsub).trans (Finset.card_insert_le _ _)
  have := Finset.card_erase_lt_of_mem hj'
  have := Finset.card_erase_lt_of_mem hu
  omega

theorem SpliceSite.lighter (hheight : Slopes g.operator? g.Reads height)
    (hsite : g.SpliceSite u) (hwired : g'.Wired g.slots.length
      (fun x => if x = u then none else g.operator? x) (splicedReads g.Reads u)) :
    Slopes g'.operator? g'.Reads height ∧ Lighter (g'.weight height) (g.weight height) := by
  refine ⟨.of_wired hwired (hheight.spliced hsite.union
    (show Kind.union ∉ filterKinds by decide) fun x i hx _ ⟨op, hop, hkind⟩ =>
      ⟨op, (if_neg hx).trans hop, hkind⟩), lighter_of_gone (fun x op hop => ?_) hsite.union
        ((hwired.operator? u).trans (if_pos rfl))⟩
  rw [hwired.operator?] at hop
  split at hop
  · cases hop
  · exact ⟨op, hop, rfl⟩

theorem RenameSite.lighter {r : Renaming} {r' : VarMap}
    (hheight : Slopes g.operator? g.Reads height) (hsite : g.RenameSite u r r')
    (hwired : g'.Wired g.slots.length (fun x => if x = u then none
      else if x ∈ (g.inputs u).map Input.source then (g.operator? x).map (Operator.renamedScan r')
        else g.operator? x) (splicedReads g.Reads u)) :
    Slopes g'.operator? g'.Reads height ∧ Lighter (g'.weight height) (g.weight height) := by
  refine ⟨.of_wired hwired (hheight.spliced hsite.rename
    (show Kind.replaceVar ∉ filterKinds by decide) fun x i hx _ ⟨op, hop, hkind⟩ => ?_),
    lighter_of_gone (fun x op hop => ?_) hsite.rename ((hwired.operator? u).trans (if_pos rfl))⟩
  · rw [if_neg hx, hop]
    split
    · exact ⟨_, rfl, (Operator.kind_renamedScan _ _).symm ▸ hkind⟩
    · exact ⟨op, rfl, hkind⟩
  · rw [hwired.operator?] at hop
    split at hop
    · cases hop
    · split at hop
      · obtain ⟨op', hop', rfl⟩ := Option.map_eq_some_iff.1 hop
        exact ⟨op', hop', (Operator.kind_renamedScan _ _).symm⟩
      · exact ⟨op, hop, rfl⟩

/-- Every reduction makes a graph lighter. -/
theorem Reduction.exists_lighter (h : g.Sane) (hheight : Slopes g.operator? g.Reads height)
    (hreduction : g.Reduction provesEmpty g') : ∃ height', Slopes g'.operator? g'.Reads height' ∧
      Lighter (g'.weight height') (g.weight height) := by
  cases hreduction with
  | pruned u op gone hop huseless hmem hexhausts hwired =>
      refine ⟨height, .of_wired hwired (hheight.thinned (fun x i hi ⟨op, hop, hkind⟩ =>
        ⟨op, remaining_eq_some.2 ⟨hi.2.1, hop⟩, hkind⟩) fun _ _ hi => hi.1), ?_⟩
      refine lighter_of_gone (fun x op hop => ?_) hop ((hwired.operator? u).trans (if_pos hmem))
      rw [hwired.operator?] at hop
      exact ⟨op, (remaining_eq_some.1 hop).2, rfl⟩
  | spliced u hsite hwired => exact ⟨height, hsite.lighter hheight hwired⟩
  | merged u inputs scans scan hsite hmerge hwired =>
      obtain ⟨height', hsame, hslopes⟩ := hsite.slopes h hheight
      refine ⟨height', .of_wired hwired hslopes, lighter_of_removed hsame
        (fun x op hop hkind => ?_) ?_⟩
      · rw [hwired.operator?] at hop
        split at hop
        · cases hop
        · split at hop
          · obtain rfl := Option.some.inj hop
            exact absurd hkind (show Kind.scan ∉ filterKinds by decide)
          · exact ⟨op, hop, hkind⟩
      · exact hsite.card_live_lt hwired
  | specialized u f equalities hop hplain hspecialize hwired =>
      refine ⟨height, .of_wired hwired (hheight.thinned (fun x i _ ⟨op, hop, hkind⟩ => ?_)
        fun _ _ => id), lighter_of_specialized .filter .ruleFilter hop rfl rfl (by decide)
          (by decide) (by decide) hwired⟩
      split
      · exact ⟨_, rfl, show Kind.ruleFilter ∈ filterKinds by decide⟩
      · exact ⟨op, hop, hkind⟩
  | indexed u hop hwired =>
      refine ⟨height, .of_wired hwired (hheight.thinned (fun x i _ ⟨op', hop', hkind⟩ => ?_)
        fun _ _ => id), lighter_of_specialized .distinct .indexDistinct hop rfl rfl (by decide)
          (by decide) (by decide) hwired⟩
      split
      · next hx =>
        obtain rfl := Option.some.inj (hop'.symm.trans (hx ▸ hop))
        exact absurd hkind (show Kind.distinct ∉ filterKinds by decide)
      · exact ⟨op', hop', hkind⟩
  | distributed u op hsite hwired =>
      obtain ⟨height', hsame, hlower, hslopes⟩ := hsite.slopes h hheight
      refine ⟨height', .of_wired hwired hslopes, lighter_of_copied hsite.operator hsite.filters.1
        hsame (fun x hle hlt => ?_) hwired.operator?⟩
      obtain ⟨s, hs⟩ := exists_of_copy_bounds (l := (g.inputs u).map Input.source) hle
        (by rwa [List.length_map])
      exact hlower x s hs
  | lowered u below op l hsite hwired =>
      obtain ⟨height', hsame, hlower, hslopes⟩ := hsite.slopes h hheight
      refine ⟨height', .of_wired hwired hslopes, lighter_of_copied hsite.operator hsite.filters.1
        hsame (fun x hle hlt => ?_) hwired.operator?⟩
      obtain ⟨j, hj⟩ := exists_of_copy_bounds (l := l) hle hlt
      exact hlower x j hj
  | renamed u r r' hsite hwired => exact ⟨height, hsite.lighter hheight hwired⟩

end Graph

end QuadAlgebra
