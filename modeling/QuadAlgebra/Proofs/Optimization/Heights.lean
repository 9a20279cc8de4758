import QuadAlgebra.Proofs.Optimization.Ranks

/-!
# Heights

Heights say how far filters have to go. Along forward edges they never fall, and they rise except to
a filter that reads nothing else: copies of a filter that has moved stand where their inputs stand,
below the place that the filter came from. Removals and splices keep heights (`Slopes.thinned`,
`Slopes.spliced`); where scans are merged and filters are distributed or lowered there are new ones
that old operators share.
-/

namespace QuadAlgebra

section Slopes

variable {γ : Type} (ops : OperatorId → Option (Operator γ)) (reads : OperatorId → Input → Prop)

/-- The operator is a filter, and over forward edges it reads this input only. -/
structure FiltersOnly (x : OperatorId) (i : Input) : Prop where
  filters : ∃ op, ops x = some op ∧ op.kind ∈ Graph.filterKinds
  only : ∀ j, reads x j → j.feedback = false → j = i

/-- Heights rise along forward edges, from the root on, but a filter may stand as high as what it
reads if that is a single input. -/
structure Slopes (height : OperatorId → Nat) : Prop where
  root : height Graph.root = 0
  slope : ∀ x i, reads x i → i.feedback = false → height i.source < height x ∨
    height i.source = height x ∧ FiltersOnly ops reads x i

end Slopes

namespace Slopes

variable {γ : Type} {ops ops' : OperatorId → Option (Operator γ)}
  {reads : OperatorId → Input → Prop} {height : OperatorId → Nat} {u x : OperatorId} {i : Input}

theorem le (h : Slopes ops reads height) (hi : reads x i) (hf : i.feedback = false) :
    height i.source ≤ height x :=
  (h.slope x i hi hf).elim Nat.le_of_lt fun he => Nat.le_of_eq he.1

/-- Heights rise to an operator that is no filter. -/
theorem lt_of_kind (h : Slopes ops reads height) {op : Operator γ} (hop : ops x = some op)
    (hkind : op.kind ∉ Graph.filterKinds) (hi : reads x i) (hf : i.feedback = false) :
    height i.source < height x := by
  refine (h.slope x i hi hf).resolve_right fun ⟨_, honly⟩ => ?_
  obtain ⟨op', hop', hkind'⟩ := honly.filters
  exact hkind (Option.some.inj (hop'.symm.trans hop) ▸ hkind')

/-- Heights rise to an operator that reads several inputs. -/
theorem lt_of_ne (h : Slopes ops reads height) {j : Input} (hi : reads x i)
    (hf : i.feedback = false) (hj : reads x j) (hf' : j.feedback = false) (hne : j ≠ i) :
    height i.source < height x :=
  (h.slope x i hi hf).resolve_right fun ⟨_, honly⟩ => hne (honly.only j hj hf')

/-- Operators may go, and they may change into others as long as filters stay filters. -/
theorem thinned (h : Slopes ops reads height) {reads' : OperatorId → Input → Prop}
    (hops : ∀ x i, reads' x i → (∃ op, ops x = some op ∧ op.kind ∈ Graph.filterKinds) →
      ∃ op, ops' x = some op ∧ op.kind ∈ Graph.filterKinds)
    (hreads : ∀ x i, reads' x i → reads x i) : Slopes ops' reads' height where
  root := h.root
  slope x i hi hf := (h.slope x i (hreads x i hi) hf).imp_right fun ⟨he, honly⟩ =>
    ⟨he, hops x i hi honly.filters, fun j hj hf => honly.only j (hreads x j hj) hf⟩

/-- What was read through an operator that is no filter may be read directly. -/
theorem spliced (h : Slopes ops reads height) {op : Operator γ} (hop : ops u = some op)
    (hkind : op.kind ∉ Graph.filterKinds)
    (hops : ∀ x i, x ≠ u → reads x i → (∃ op, ops x = some op ∧ op.kind ∈ Graph.filterKinds) →
      ∃ op, ops' x = some op ∧ op.kind ∈ Graph.filterKinds) :
    Slopes ops' (splicedReads reads u) height where
  root := h.root
  slope x i hi hf := by
    rcases hi with ⟨hi, hx, hs⟩ | hbypass
    · refine (h.slope x i hi hf).imp_right fun ⟨he, honly⟩ =>
        ⟨he, hops x i hx hi honly.filters, fun j hj hf' => ?_⟩
      rcases hj with ⟨hj, -, -⟩ | hbypass
      · exact honly.only j hj hf'
      · obtain ⟨-, -, -, hread, -⟩ := hbypass.exists_forward hf'
        exact absurd (congrArg Input.source (honly.only _ hread rfl)).symm hs
    · obtain ⟨j, hj, hforward, hread, hsource⟩ := hbypass.exists_forward hf
      rw [← hsource]
      exact .inl (Nat.lt_of_lt_of_le (h.lt_of_kind hop hkind hj hforward) (h.le hread rfl))

end Slopes

namespace Graph

variable {γ : Type} {g g' : Graph γ} {provesEmpty : IndexScan → Bool} {u below x : OperatorId}
  {i : Input} {op : Operator γ} {height : OperatorId → Nat}

/-! ## Heights after reductions -/

section Sites

variable (h : g.Sane) (hheight : Slopes g.operator? g.Reads height)

include h hheight

theorem MergeSite.slopes {inputs : List Input} {scans : List IndexScan} {scan : IndexScan}
    (hsite : g.MergeSite u inputs scans) : ∃ height',
      (∀ x < g.slots.length, height' x = height x) ∧
      Slopes (fun x => if x = u ∨ x ∈ inputs.map Input.source then none
          else if x = g.slots.length then some (.scan scan) else g.operator? x)
        (mergedReads g.Reads g.slots.length u (inputs.map Input.source)) height' := by
  obtain ⟨j, hj⟩ := List.exists_mem_of_length_pos (Nat.lt_of_lt_of_le Nat.two_pos hsite.many)
  have hpos : 0 < height u := Nat.lt_of_le_of_lt (Nat.zero_le _)
    (hheight.lt_of_kind hsite.join (show Kind.join ∉ filterKinds by decide)
      ((hsite.reads_iff h.linked).2 hj) (feedsOnly_iff.1 (hsite.only j hj)).1)
  -- what reads old operators or the join is an old operator that stays
  have hfilter {x : OperatorId} {i : Input} (hi : g.Reads x i) (hx : x ≠ u)
      (hmem : x ∉ inputs.map Input.source) : (if x = u ∨ x ∈ inputs.map Input.source then none
        else if x = g.slots.length then some (.scan scan) else g.operator? x) = g.operator? x := by
    rw [if_neg (not_or.2 ⟨hx, hmem⟩), if_neg (h.lt_of_reads hi).1.ne]
  refine ⟨onNew g.slots.length height (height u), fun x => onNew_of_lt,
    (onNew_of_lt h.root_lt).trans hheight.root, fun x i hi hf => ?_⟩
  rcases hi with ⟨hi, hx, hs, hmem⟩ | ⟨rfl, rfl⟩ | ⟨hsource, hi⟩
  · rw [onNew_of_lt (h.lt_of_reads hi).1, onNew_of_lt (h.lt_of_reads hi).2]
    refine (hheight.slope x i hi hf).imp_right fun ⟨he, honly⟩ =>
      ⟨he, by rw [hfilter hi hx hmem]; exact honly.filters, fun k hk hf' => ?_⟩
    rcases hk with ⟨hk, -, -, -⟩ | ⟨hx', -⟩ | ⟨-, hk⟩
    · exact honly.only k hk hf'
    · exact absurd hx' (h.lt_of_reads hi).1.ne
    · exact absurd (congrArg Input.source (honly.only _ hk hf')).symm hs
  · rw [onNew_self, onNew_of_lt h.root_lt, hheight.root]
    exact .inl hpos
  · have hx : x ≠ u := by
      rintro rfl
      exact h.source_ne hi hf rfl
    have hmem : x ∉ inputs.map Input.source := fun hmem => by
      obtain ⟨k, hk, rfl⟩ := List.mem_map.1 hmem
      exact h.ne_root hsite.join Kind.noConfusion (hsite.roots k hk _ hi).1
    rw [hsource, onNew_self, onNew_of_lt (h.lt_of_reads hi).1]
    refine (hheight.slope x _ hi hf).imp_right fun ⟨he, honly⟩ =>
      ⟨he, by rw [hfilter hi hx hmem]; exact honly.filters, fun k hk hf' => ?_⟩
    rcases hk with ⟨hk, -, hs, -⟩ | ⟨hx', -⟩ | ⟨hs, hk⟩
    · exact absurd (congrArg Input.source (honly.only k hk hf')) hs
    · exact absurd hx' (h.lt_of_reads hi).1.ne
    · obtain ⟨-, hoperand, hfeedback⟩ := Input.mk.inj (honly.only _ hk hf')
      exact Input.eq_iff.2 ⟨hs.trans hsource.symm, hoperand, hfeedback⟩

theorem DistributeSite.slopes (hsite : g.DistributeSite u op) : ∃ height',
    (∀ x < g.slots.length, height' x = height x) ∧
    (∀ x s, CopyOf g.slots.length ((g.inputs u).map Input.source) x s →
      height' x < height u) ∧
    Slopes (fun x => if x = u then none
        else withCopies g.operator? g.slots.length (g.inputs u).length op x)
      (distributedReads g.Reads g.slots.length u ((g.inputs u).map Input.source)) height' := by
  set members := (g.inputs u).map Input.source with hmembers
  have hlength : (g.inputs u).length = members.length := (List.length_map _).symm
  have hmember {s : OperatorId} (hs : s ∈ members) :
      s < g.slots.length ∧ height s < height u := by
    obtain ⟨j, hj, rfl⟩ := List.mem_map.1 hs
    have hread := h.linked.mem_inputs.1 hj
    obtain ⟨k, hk, hne⟩ := hsite.exists_ne h.linked j
    exact ⟨(h.lt_of_reads hread).2, hheight.lt_of_ne hread (hsite.forward j hread).1 hk
      (hsite.forward k hk).1 hne⟩
  have hfilter {x : OperatorId} {i : Input} (hi : g.Reads x i) (hx : x ≠ u) :
      (if x = u then none else withCopies g.operator? g.slots.length (g.inputs u).length op x) =
        g.operator? x := (if_neg hx).trans (withCopies_of_lt (h.lt_of_reads hi).1)
  have hnew {x s : OperatorId} (hs : CopyOf g.slots.length members x s) : ¬ x < g.slots.length :=
    Nat.not_lt.2 hs.bounds.1
  refine ⟨onCopies g.slots.length members height height, fun x => onCopies_of_lt,
    fun x s hs => (onCopies_of_copyOf hs).trans_lt (hmember hs.mem).2,
    (onCopies_of_lt h.root_lt).trans hheight.root, fun x i hi hf => ?_⟩
  rcases hi with ⟨hi, hx, hs⟩ | ⟨s, hs, rfl⟩ | ⟨s, hs, hi⟩
  · rw [onCopies_of_lt (h.lt_of_reads hi).1, onCopies_of_lt (h.lt_of_reads hi).2]
    refine (hheight.slope x i hi hf).imp_right fun ⟨he, honly⟩ =>
      ⟨he, by rw [hfilter hi hx]; exact honly.filters, fun k hk hf' => ?_⟩
    rcases hk with ⟨hk, -, -⟩ | ⟨s, hcopy, -⟩ | ⟨s, -, hk⟩
    · exact honly.only k hk hf'
    · exact absurd (h.lt_of_reads hi).1 (hnew hcopy)
    · exact absurd (congrArg Input.source (honly.only _ hk hf')).symm hs
  · refine .inr ⟨(onCopies_of_lt (hmember hs.mem).1).trans (onCopies_of_copyOf hs).symm,
      ⟨op, ?_, hsite.filters.1⟩,
      fun k hk hf' => ?_⟩
    · rw [if_neg, hlength, withCopies_of_copyOf hs]
      rintro rfl
      exact hnew hs (h.lt hsite.operator)
    · rcases hk with ⟨hk, -, -⟩ | ⟨s', hs', rfl⟩ | ⟨-, -, hk⟩
      · exact absurd (h.lt_of_reads hk).1 (hnew hs)
      · rw [hs'.unique hs]
      · exact absurd (h.lt_of_reads hk).1 (hnew hs)
  · rw [onCopies_of_copyOf hs, onCopies_of_lt (h.lt_of_reads hi).1]
    exact .inl (Nat.lt_of_lt_of_le (hmember hs.mem).2 (hheight.le hi hf))

theorem LowerSite.slopes {l : List Input} (hsite : g.LowerSite u below op l) : ∃ height',
    (∀ x < g.slots.length, height' x = height x) ∧
    (∀ x j, CopyOf g.slots.length l x j → height' x < height u) ∧
    Slopes (fun x => if x = u then none
        else withCopies g.operator? g.slots.length l.length op x)
      (loweredReads g.Reads g.slots.length u below l) height' := by
  obtain ⟨opᵦ, hkinds, hopᵦ⟩ := hsite.exists_below
  have hkind : opᵦ.kind ∉ filterKinds := by
    obtain rfl | rfl | rfl : opᵦ = .join ∨ opᵦ = .union ∨ opᵦ = .optional := by simpa using hkinds
    · exact show Kind.join ∉ filterKinds by decide
    · exact show Kind.union ∉ filterKinds by decide
    · exact show Kind.optional ∉ filterKinds by decide
  obtain ⟨k, hread, hsource, hforward, -⟩ := hsite.input_eq h.linked
  have hbelow : below < g.slots.length := h.lt hopᵦ
  have hle : height below ≤ height u := hsource ▸ hheight.le ((hread k).2 rfl) hforward
  have hlower {j : Input} (hj : j ∈ l) : height j.source < height below := by
    obtain ⟨hj, hfeeds⟩ := hsite.reads h.linked hj
    exact hheight.lt_of_kind hopᵦ hkind hj (feedsOnly_iff.1 hfeeds).1
  have hfilter {x : OperatorId} {i : Input} (hi : g.Reads x i) (hx : x ≠ u) :
      (if x = u then none else withCopies g.operator? g.slots.length l.length op x) =
        g.operator? x := (if_neg hx).trans (withCopies_of_lt (h.lt_of_reads hi).1)
  have hnew {x : OperatorId} {j : Input} (hj : CopyOf g.slots.length l x j) :
      ¬ x < g.slots.length := Nat.not_lt.2 hj.bounds.1
  -- a filter that has but one input is not the operator below
  have hother {x : OperatorId} {i : Input} (honly : FiltersOnly g.operator? g.Reads x i) :
      x ≠ below := by
    rintro rfl
    obtain ⟨op', hop', hkind'⟩ := honly.filters
    exact hkind (Option.some.inj (hop'.symm.trans hopᵦ) ▸ hkind')
  refine ⟨onCopies g.slots.length l height fun j => height j.source, fun x => onCopies_of_lt,
    fun x j hj => (onCopies_of_copyOf hj).trans_lt (Nat.lt_of_lt_of_le (hlower hj.mem) hle),
    (onCopies_of_lt h.root_lt).trans hheight.root, fun x i hi hf => ?_⟩
  rcases hi with ⟨hi, hx, hs, -⟩ | ⟨j, hj, rfl⟩ | ⟨rfl, j, hj, -, -⟩ | ⟨hs, hi⟩
  · rw [onCopies_of_lt (h.lt_of_reads hi).1, onCopies_of_lt (h.lt_of_reads hi).2]
    refine (hheight.slope x i hi hf).imp_right fun ⟨he, honly⟩ =>
      ⟨he, by rw [hfilter hi hx]; exact honly.filters, fun k hk hf' => ?_⟩
    rcases hk with ⟨hk, -, -, -⟩ | ⟨j, hj, -⟩ | ⟨hx, -⟩ | ⟨-, hk⟩
    · exact honly.only k hk hf'
    · exact absurd (h.lt_of_reads hi).1 (hnew hj)
    · exact absurd hx (hother honly)
    · exact absurd (congrArg Input.source (honly.only _ hk hf')).symm hs
  · have hsource := (h.lt_of_reads (hsite.reads h.linked hj.mem).1).2
    refine .inr ⟨by rw [onCopies_of_lt hsource, onCopies_of_copyOf hj], ⟨op, ?_, hsite.filters.1⟩,
      fun k hk hf' => ?_⟩
    · rw [if_neg, withCopies_of_copyOf hj]
      rintro rfl
      exact hnew hj (h.lt hsite.operator)
    · rcases hk with ⟨hk, -, -, -⟩ | ⟨j', hj', rfl⟩ | ⟨rfl, -⟩ | ⟨-, hk⟩
      · exact absurd (h.lt_of_reads hk).1 (hnew hj)
      · rw [hj'.unique hj]
      · exact absurd hbelow (hnew hj)
      · exact absurd (h.lt_of_reads hk).1 (hnew hj)
  · rw [onCopies_of_copyOf hj, onCopies_of_lt hbelow]
    exact .inl (hlower hj.mem)
  · have hx : x ≠ u := by
      rintro rfl
      exact h.source_ne hi hf rfl
    rw [hs, onCopies_of_lt hbelow, onCopies_of_lt (h.lt_of_reads hi).1]
    rcases Nat.lt_or_eq_of_le hle with hlt | heq
    · exact .inl (Nat.lt_of_lt_of_le hlt (hheight.le hi hf))
    rw [heq]
    refine (hheight.slope x _ hi hf).imp_right fun ⟨he, honly⟩ =>
      ⟨he, by rw [hfilter hi hx]; exact honly.filters, fun k hk hf' => ?_⟩
    rcases hk with ⟨hk, -, hs', -⟩ | ⟨j, hj, -⟩ | ⟨hx, -⟩ | ⟨hs', hk⟩
    · exact absurd (congrArg Input.source (honly.only k hk hf')) hs'
    · exact absurd (h.lt_of_reads hi).1 (hnew hj)
    · exact absurd hx (hother honly)
    · obtain ⟨-, hoperand, hfeedback⟩ := Input.mk.inj (honly.only _ hk hf')
      exact Input.eq_iff.2 ⟨hs'.trans hs.symm, hoperand, hfeedback⟩

end Sites

end Graph

end QuadAlgebra
