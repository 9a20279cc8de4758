import QuadAlgebra.Proofs.Optimization.Matches

/-!
# Ranks after reductions

Reductions leave a graph sane (`Graph.Reduction.sane`): what is read instead of a removed operator
has a lower rank than it, a scan takes the rank of the join that it replaces, and there is always
room for the copies of a filter between two operators.
-/

namespace QuadAlgebra

/-! ## Numbers for copies -/

section OnCopies

variable {α : Type} {first : Nat} {l : List α} {f : OperatorId → Nat} {F : α → Nat} {x : OperatorId}
  {a : α}

/-- Numbers for old operators together with numbers for copies, which are numbered as the elements
of a list from the given number on. -/
def onCopies (first : Nat) (l : List α) (f : OperatorId → Nat) (F : α → Nat) (x : OperatorId) :
    Nat :=
  if x < first then f x else (l[x - first]?.map F).getD 0

theorem onCopies_of_lt (hx : x < first) : onCopies first l f F x = f x := if_pos hx

theorem onCopies_of_copyOf (h : CopyOf first l x a) : onCopies first l f F x = F a := by
  obtain ⟨k, hk, rfl⟩ := h
  rw [onCopies, if_neg (Nat.not_lt.2 (Nat.le_add_right _ _)), Nat.add_sub_cancel_left, hk]
  rfl

/-- Numbers for old operators together with a number for those that are new. -/
def onNew (first : Nat) (f : OperatorId → Nat) (n : Nat) (x : OperatorId) : Nat :=
  if x < first then f x else n

theorem onNew_of_lt {n : Nat} (hx : x < first) : onNew first f n x = f x := if_pos hx

theorem onNew_self {n : Nat} : onNew first f n first = n := if_neg (Nat.lt_irrefl _)

end OnCopies

namespace Graph

variable {γ : Type} {g g' : Graph γ} {provesEmpty : IndexScan → Bool} {u x : OperatorId} {i : Input}
  {op : Operator γ} {size : Nat} {ops : OperatorId → Option (Operator γ)}
  {reads : OperatorId → Input → Prop} {rank : OperatorId → Nat}

/-! ## Ranks -/

namespace Sane

theorem of_wired (h : g'.Wired size ops reads) (hroot : ops Graph.root = some .root)
    (hranks : ∃ rank, Ranks reads rank) : g'.Sane := by
  obtain ⟨rank, hrank⟩ := hranks
  exact ⟨h.linked, (h.operator? _).trans hroot, rank, hrank.root, fun x i hi =>
    hrank.ascends x i ((h.reads x i).1 hi)⟩

theorem lt (h : g.Sane) (hop : g.operator? x = some op) : x < g.slots.length :=
  h.wired.lt_of_ne_none (by simp [hop])

theorem root_lt (h : g.Sane) : Graph.root < g.slots.length := h.lt h.root

/-- The ends of an edge are old. -/
theorem lt_of_reads (h : g.Sane) (hi : g.Reads x i) :
    x < g.slots.length ∧ i.source < g.slots.length :=
  ⟨h.wired.lt_of_ne_none (h.wired.ends_of_reads hi).1,
    h.wired.lt_of_ne_none (h.wired.ends_of_reads hi).2⟩

end Sane

end Graph

/-- What is read forward instead of an operator feeds it forward. -/
theorem Bypass.exists_forward {reads : OperatorId → Input → Prop} {u x : OperatorId} {i : Input}
    (h : Bypass reads u x i) (hf : i.feedback = false) :
    ∃ j, reads u j ∧ j.feedback = false ∧ reads x ⟨u, i.operand, false⟩ ∧ j.source = i.source := by
  obtain ⟨j, f, hj, hx, he⟩ := h
  have hfeedback : i.feedback = (j.feedback || f) := congrArg Input.feedback he
  rw [hf, eq_comm, Bool.or_eq_false_iff] at hfeedback
  obtain ⟨hforward, rfl⟩ := hfeedback
  exact ⟨j, hj, hforward, hx, (congrArg Input.source he).symm⟩

namespace Graph

variable {γ : Type} {g g' : Graph γ} {provesEmpty : IndexScan → Bool} {u below x : OperatorId}
  {i : Input} {op : Operator γ} {reads : OperatorId → Input → Prop} {rank : OperatorId → Nat}

theorem Ranks.spliced (h : Ranks reads rank) : Ranks (splicedReads reads u) rank where
  root := h.root
  ascends x i hi hf := by
    rcases hi with ⟨hi, -, -⟩ | hbypass
    · exact h.ascends x i hi hf
    · obtain ⟨j, hj, hforward, hx, hsource⟩ := hbypass.exists_forward hf
      rw [← hsource]
      exact Nat.lt_trans (h.ascends u j hj hforward) (h.ascends x ⟨u, i.operand, false⟩ hx rfl)

/-! ## Reductions -/

section Sites

variable (h : g.Sane)

include h

theorem MergeSite.ranks {inputs : List Input} {scans : List IndexScan}
    (hsite : g.MergeSite u inputs scans) :
    ∃ rank, Ranks (mergedReads g.Reads g.slots.length u (inputs.map Input.source)) rank := by
  obtain ⟨rank, hrank⟩ := h.ranks
  obtain ⟨j, hj⟩ := List.exists_mem_of_length_pos (Nat.lt_of_lt_of_le Nat.two_pos hsite.many)
  have hpos : 0 < rank u := Nat.lt_of_le_of_lt (Nat.zero_le _) (hrank.ascends u j
    ((hsite.reads_iff h.linked).2 hj) (feedsOnly_iff.1 (hsite.only j hj)).1)
  -- the scan takes the place of the join
  refine ⟨onNew g.slots.length rank (rank u), (onNew_of_lt h.root_lt).trans hrank.root,
    fun x i hi hf => ?_⟩
  rcases hi with ⟨hi, -, -, -⟩ | ⟨rfl, rfl⟩ | ⟨hsource, hi⟩
  · obtain ⟨hx, hs⟩ := h.lt_of_reads hi
    rw [onNew_of_lt hx, onNew_of_lt hs]
    exact hrank.ascends x i hi hf
  · rw [onNew_self, onNew_of_lt h.root_lt, hrank.root]
    exact hpos
  · rw [hsource, onNew_self, onNew_of_lt (h.lt_of_reads hi).1]
    exact hrank.ascends x _ hi hf

theorem DistributeSite.ranks (hsite : g.DistributeSite u op) : ∃ rank, Ranks
    (distributedReads g.Reads g.slots.length u ((g.inputs u).map Input.source)) rank := by
  obtain ⟨rank, hrank⟩ := h.ranks
  set members := (g.inputs u).map Input.source with hmembers
  -- copies stand half a step above what they read
  have hmember {s : OperatorId} (hs : s ∈ members) : s < g.slots.length ∧ rank s < rank u := by
    obtain ⟨j, hj, rfl⟩ := List.mem_map.1 hs
    have hread := h.linked.mem_inputs.1 hj
    exact ⟨(h.lt_of_reads hread).2, hrank.ascends u j hread (hsite.forward j hread).1⟩
  refine ⟨onCopies g.slots.length members (fun x => 2 * rank x) fun s => 2 * rank s + 1,
    (onCopies_of_lt h.root_lt).trans (by rw [hrank.root]), fun x i hi hf => ?_⟩
  rcases hi with ⟨hi, -, -⟩ | ⟨s, hs, rfl⟩ | ⟨s, hs, hi⟩
  · obtain ⟨hx, hsource⟩ := h.lt_of_reads hi
    have := hrank.ascends x i hi hf
    rw [onCopies_of_lt hx, onCopies_of_lt hsource]
    omega
  · rw [onCopies_of_copyOf hs, onCopies_of_lt (hmember hs.mem).1]
    omega
  · have hlt := (hmember hs.mem).2
    have hup := hrank.ascends x _ hi hf
    rw [onCopies_of_copyOf hs, onCopies_of_lt (h.lt_of_reads hi).1]
    dsimp only at hup
    omega

theorem LowerSite.ranks {l : List Input} (hsite : g.LowerSite u below op l) :
    ∃ rank, Ranks (loweredReads g.Reads g.slots.length u below l) rank := by
  obtain ⟨rank, hrank⟩ := h.ranks
  obtain ⟨k, hread, hsource, hforward, -⟩ := hsite.input_eq h.linked
  have hbelow : rank below < rank u := hsource ▸ hrank.ascends u k ((hread k).2 rfl) hforward
  have hlt : below < g.slots.length := hsource ▸ (h.lt_of_reads ((hread k).2 rfl)).2
  -- copies stand half a step above what they read
  refine ⟨onCopies g.slots.length l (fun x => 2 * rank x) fun j => 2 * rank j.source + 1,
    (onCopies_of_lt h.root_lt).trans (by rw [hrank.root]), fun x i hi hf => ?_⟩
  rcases hi with ⟨hi, -, -, -⟩ | ⟨j, hj, rfl⟩ | ⟨rfl, j, hj, -, -⟩ | ⟨hs, hi⟩
  · obtain ⟨hx, hs⟩ := h.lt_of_reads hi
    have := hrank.ascends x i hi hf
    rw [onCopies_of_lt hx, onCopies_of_lt hs]
    omega
  · rw [onCopies_of_copyOf hj, onCopies_of_lt (h.lt_of_reads (hsite.reads h.linked hj.mem).1).2]
    omega
  · obtain ⟨hj', hfeeds⟩ := hsite.reads h.linked hj.mem
    have := hrank.ascends x j hj' (feedsOnly_iff.1 hfeeds).1
    rw [onCopies_of_copyOf hj, onCopies_of_lt hlt]
    omega
  · have hup := hrank.ascends x _ hi hf
    rw [hs, onCopies_of_lt hlt, onCopies_of_lt (h.lt_of_reads hi).1]
    dsimp only at hup
    omega

end Sites

theorem Reduction.sane (h : g.Sane) (hreduction : g.Reduction provesEmpty g') : g'.Sane := by
  obtain ⟨rank, hrank⟩ := h.ranks
  cases hreduction with
  | pruned u op gone hop huseless hmem hexhausts hwired =>
      have hroot : Graph.root ∉ gone := fun hmem => by
        obtain ⟨op, hop, hremovable⟩ := hexhausts.removable _ hmem
        obtain rfl := Option.some.inj (h.root.symm.trans hop)
        exact hremovable.1 rfl
      exact .of_wired hwired ((remaining_of_not_mem hroot).trans h.root)
        ⟨rank, hrank.root, fun x i hi => hrank.ascends x i hi.1⟩
  | spliced u hsite hwired =>
      have hne := h.ne_root hsite.union Kind.noConfusion
      exact .of_wired hwired ((if_neg hne.symm).trans h.root) ⟨rank, hrank.spliced⟩
  | merged u inputs scans scan hsite hmerge hwired =>
      refine .of_wired hwired ?_ (hsite.ranks h)
      have hne : ¬ (Graph.root = u ∨ Graph.root ∈ inputs.map Input.source) := by
        rintro (he | hmem)
        · exact h.ne_root hsite.join Kind.noConfusion he.symm
        · obtain ⟨i, hi, he⟩ := List.mem_map.1 hmem
          obtain ⟨s, hs⟩ := hsite.exists_scan hi
          exact h.ne_root hs Kind.noConfusion he
      rw [if_neg hne, if_neg h.root_lt.ne]
      exact h.root
  | specialized u f equalities hop hplain hspecialize hwired =>
      have hne := h.ne_root hop Kind.noConfusion
      exact .of_wired hwired ((if_neg hne.symm).trans h.root) ⟨rank, hrank⟩
  | indexed u hop hwired =>
      have hne := h.ne_root hop Kind.noConfusion
      exact .of_wired hwired ((if_neg hne.symm).trans h.root) ⟨rank, hrank⟩
  | distributed u op hsite hwired =>
      have hne := h.ne_root hsite.operator (hsite.filters.kind_ne (by decide))
      refine .of_wired hwired ((if_neg hne.symm).trans ?_) (hsite.ranks h)
      exact (withCopies_of_lt h.root_lt).trans h.root
  | lowered u below op l hsite hwired =>
      have hne := h.ne_root hsite.operator (hsite.filters.kind_ne (by decide))
      refine .of_wired hwired ((if_neg hne.symm).trans ?_) (hsite.ranks h)
      exact (withCopies_of_lt h.root_lt).trans h.root
  | renamed u r r' hsite hwired =>
      have hne := h.ne_root hsite.rename Kind.noConfusion
      refine .of_wired hwired ((if_neg hne.symm).trans ?_) ⟨rank, hrank.spliced⟩
      rw [if_neg, h.root]
      intro hmem
      obtain ⟨i, hi, he⟩ := List.mem_map.1 hmem
      obtain ⟨s, hs, -⟩ := hsite.scans i (h.linked.mem_inputs.1 hi)
      exact h.ne_root hs Kind.noConfusion he

end Graph

end QuadAlgebra
