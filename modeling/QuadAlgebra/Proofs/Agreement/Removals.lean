import QuadAlgebra.Proofs.Agreement.Mirrors
import QuadAlgebra.Proofs.Variables.Rewriting

/-!
# Mirrors with fewer operators

Whatever a cascade takes out of a plan is either silent, as it never has any rows, or read by
nothing that is left (`Graph.Mute`). So those that are left read the rows that they have read before
(`Graph.Traced.pruned`).
-/

namespace QuadAlgebra

open List (Perm)

/-! ## Operators without rows -/

theorem joinSolutions_nil (l : List Solution) : joinSolutions l [] = [] := by
  simp [joinSolutions]

theorem joinAll_eq_nil {lists : List (List Solution)} (h : [] ∈ lists) : joinAll lists = [] := by
  rw [joinAll_eq_joinMany (List.ne_nil_of_mem h)]
  induction lists with
  | nil => cases h
  | cons rows rest ih =>
      rw [joinMany_cons]
      rcases List.mem_cons.1 h with rfl | h
      · rfl
      · rw [ih h, joinSolutions_nil]

section Emission

variable {op : Operator (Except Error (List Solution))} {src : Source} {id : OperatorId}
  {operands : Operands} {rows : List Row}

/-- A join without solutions on one of its operands has none. -/
theorem Operator.emit_join_nil {o : Nat × List Row} (ho : o ∈ operands) (hnone : o.2 = [])
    (h : emit src id .join operands = .ok rows) : rows = [] := by
  rw [emit] at h
  cases hlists : operands.mapM fun o => expectSolutions id o.2 with
  | error e =>
      rw [hlists] at h
      cases h
  | ok lists =>
      rw [hlists] at h
      obtain rfl := Except.ok.inj h
      obtain ⟨found, hmem, hfound⟩ := exists_of_forall₂ (forall₂_of_mapM_ok hlists) ho
      rw [hnone] at hfound
      obtain rfl := Except.ok.inj hfound
      rw [joinAll_eq_nil hmem]
      rfl

/-- A difference or an optional pattern without solutions on the first operand has none. -/
theorem Operator.emit_first_nil (hop : op ∈ [.optional, .minus]) (hnone : operands.on 0 = [])
    (h : op.emit src id operands = .ok rows) : rows = [] := by
  simp only [List.mem_cons, List.not_mem_nil, or_false] at hop
  rcases hop with rfl | rfl
  all_goals
    obtain ⟨left, right, hleft, -, rfl⟩ := Operator.exists_of_pairwise_eq_ok h
    rw [hnone] at hleft
    obtain rfl := Except.ok.inj hleft
    rfl

/-- An operator that reads no rows has none, unless it is the root or a group. -/
theorem Operator.emit_of_rows_nil (hroot : op.kind ≠ .root) (hgroup : op.kind ≠ .group)
    (hrows : operands.rows = []) (h : op.emit src id operands = .ok rows) : rows = [] := by
  have hnone (k : Nat) : operands.on k = [] := by
    unfold Operands.on
    cases hk : operands.lookup k with
    | none => rfl
    | some found => exact List.flatMap_eq_nil_iff.1 hrows (k, found) (lookup_mem hk)
  cases op with
  | root => exact absurd rfl hroot
  | group => exact absurd rfl hgroup
  | join =>
      cases operands with
      | nil =>
          obtain rfl := Except.ok.inj h
          rfl
      | cons o rest =>
          exact emit_join_nil List.mem_cons_self
            (List.flatMap_eq_nil_iff.1 hrows o List.mem_cons_self) h
  | optional => exact emit_first_nil (by simp) (hnone 0) h
  | minus => exact emit_first_nil (by simp) (hnone 0) h
  | service => cases h
  | filter f =>
      rw [emit, hrows] at h
      cases hfound : nestedSolutions f.nested 0 f.condition.existencePatterns with
      | error e =>
          rw [hfound] at h
          cases h
      | ok found =>
          rw [hfound] at h
          exact (Except.ok.inj h).symm
  | limit n =>
      rw [emit, hrows, List.take_nil] at h
      exact (Except.ok.inj h).symm
  | offset n =>
      rw [emit, hrows, List.drop_nil] at h
      exact (Except.ok.inj h).symm
  | _ =>
      rw [emit, hrows] at h
      exact (Except.ok.inj h).symm

end Emission

namespace Graph

section Silence

variable {G G' : Graph Plan} {src : Source} {limit : Nat} {level : OperatorId → Precision}
  {E : History} {x u : OperatorId} {op : Operator Plan} {gone : List OperatorId}

/-- The operator never has any rows. -/
def Silent (E : History) (x : OperatorId) : Prop := ∀ n, E n x = []

/-- The operator is silent, or nothing that reads it is left. -/
inductive Mute (G : Graph Plan) (E : History) (gone : List OperatorId) : OperatorId → Prop
  | silent {x : OperatorId} (hgone : x ∈ gone) (h : Silent E x) : Mute G E gone x
  | unread {x : OperatorId} (hgone : x ∈ gone)
    (h : ∀ y i, G.Reads y i → i.source = x → Mute G E gone y) : Mute G E gone x

theorem Mute.mem (h : G.Mute E gone x) : x ∈ gone := by
  cases h <;> assumption

/-- What is read by an operator that is left, or by one that is not mute, is silent if it is
mute. -/
theorem Mute.silent_of_reads {i : Input} (h : G.Mute E gone i.source) (hi : G.Reads x i)
    (hx : ¬ G.Mute E gone x) : Silent E i.source := by
  cases h with
  | silent _ h => exact h
  | unread _ h => exact absurd (h x i hi rfl) hx

/-- What emits nothing in all rounds is silent. -/
theorem Traced.silent (hE : G.Traced src limit level E) (hop : G.operator? x = some op)
    (h : ∀ n rows, (op.opened src limit).emit src x (G.deliver (E.over n) x) = .ok rows →
      rows = []) : Silent E x := by
  intro n
  cases n with
  | zero => exact hE.zero x
  | succ n =>
      obtain ⟨rows, hemit, hrows⟩ := hE.step n x op hop
      obtain rfl := h n rows hemit
      exact hrows.eq_nil_iff.1 rfl

/-- Nothing comes of nothing, nor of nothing on an operand that is required, unless there is a
group. -/
theorem emit_starved (hlinked : G.Linked) (hthreads : Threads G.operator? G.Reads)
    (hop : G.operator? x = some op) (hremovable : op.Removable) (hgroup : op.kind ≠ .group)
    {read : Input → List Row} (hstarved : (∀ j, G.Reads x j → read j = []) ∨
      ∃ i, G.Reads x i ∧ op.requires i.operand = true ∧
        ∀ j, G.Reads x j → j.operand = i.operand → read j = []) {rows : List Row}
    (hemit : (op.opened src limit).emit src x (G.deliver read x) = .ok rows) : rows = [] := by
  have hkind : (op.opened src limit).kind = op.kind := kind_withNested op _
  have hall (hnone : ∀ j, G.Reads x j → read j = []) : rows = [] := by
    refine Operator.emit_of_rows_nil (hkind ▸ hremovable.1) (hkind ▸ hgroup) ?_ hemit
    have hread : (G.inputs x).flatMap read = [] :=
      List.flatMap_eq_nil_iff.2 fun j hj => hnone j (hlinked.mem_inputs.1 hj)
    exact List.perm_nil.1 (hread ▸ rows_deliver_perm read)
  rcases hstarved with hnone | ⟨i, hi, hrequires, hnone⟩
  · exact hall hnone
  have hon : (G.deliver read x).on i.operand = [] := by
    rw [on_deliver]
    refine List.flatMap_eq_nil_iff.2 fun j hj => ?_
    obtain ⟨hj, hoperand⟩ := List.mem_filter.1 hj
    exact hnone j (hlinked.mem_inputs.1 hj) (beq_iff_eq.1 hoperand)
  by_cases hspread : op.kind ∈ spread
  · cases op with
    | command c => cases c <;> simp [Operator.kind, GraphCommand.kind, spread] at hspread
    | union => cases hrequires
    | join =>
        obtain ⟨o, ho, hoperand, -⟩ := exists_mem_deliver read (hlinked.mem_inputs.2 hi)
        refine Operator.emit_join_nil ho ?_ hemit
        rw [← Operands.on_eq_of_mem nodup_deliver ho, hoperand, hon]
    | optional =>
        rw [beq_iff_eq.1 hrequires] at hon
        exact Operator.emit_first_nil (by simp [Operator.opened, Operator.withNested]) hon hemit
    | minus =>
        rw [beq_iff_eq.1 hrequires] at hon
        exact Operator.emit_first_nil (by simp [Operator.opened, Operator.withNested]) hon hemit
    | _ => simp [Operator.kind, spread] at hspread
  · refine hall fun j hj => hnone j hj ?_
    rw [hthreads.operands x j op hj hop hspread, hthreads.operands x i op hi hop hspread]

/-- An operator is silent if what it reads is, or what it reads on an operand that it requires. -/
theorem Traced.silent_of_starved (h : G.Graded level) (hE : G.Traced src limit level E)
    (hop : G.operator? x = some op) (hremovable : op.Removable)
    (hstarved : (∀ j, G.Reads x j → Silent E j.source) ∨
      ∃ i, G.Reads x i ∧ op.requires i.operand = true ∧
        ∀ j, G.Reads x j → j.operand = i.operand → Silent E j.source) : Silent E x := by
  have hover {j : Input} (hj : Silent E j.source) (n : Nat) : E.over n j = [] := hj _
  have hgroup : op.kind ≠ .group := by
    have hbears := h.bears x op hop
    intro hkind
    cases hlevel : level x with
    | emptiness => exact hbears.ne_emptiness (by simp [hkind]) hlevel
    | members | bag =>
        rw [hlevel] at hbears
        cases op with
        | group => exact hbears
        | command c => cases c <;> cases hkind
        | _ => cases hkind
  refine hE.silent hop fun n rows hemit =>
    emit_starved h.symmetric.linked h.threads hop hremovable hgroup ?_ hemit
  refine hstarved.imp (fun hall j hj => hover (hall j hj) n) ?_
  rintro ⟨i, hi, hrequires, hall⟩
  exact ⟨i, hi, hrequires, fun j hj hoperand => hover (hall j hj hoperand) n⟩

/-- A useless operator is silent, or nothing reads it. -/
theorem Traced.silent_of_useless {provesEmpty : IndexScan → Bool}
    (hE : G.Traced src limit level E) (hempty : ∀ s, provesEmpty s = true → src.scan s = [])
    (hop : G.operator? u = some op) (huseless : G.Useless provesEmpty u op) :
    Silent E u ∨ ∀ y i, G.Reads y i → i.source ≠ u := by
  have hunread (hnone : G.succeeding u = []) (y : OperatorId) (i : Input) (hi : G.Reads y i) :
      i.source ≠ u := by
    rintro rfl
    exact List.ne_nil_of_mem hi hnone
  cases huseless with
  | emptyScan s hs =>
      refine .inl (hE.silent hop fun n rows hemit => ?_)
      replace hemit : (expectSolutions u (G.deliver (E.over n) u).rows).map
          (fun found => (joinSolutions found (src.scan s)).map Row.solution) = .ok rows := hemit
      obtain ⟨found, -, rfl⟩ := exists_of_map_expectSolutions hemit
      rw [hempty s hs, joinSolutions_nil]
      rfl
  | idleTemplate template hidle =>
      refine hidle.imp (fun hnone => hE.silent hop fun n rows hemit => ?_) hunread
      subst hnone
      replace hemit : (expectSolutions u (G.deliver (E.over n) u).rows).map
          (fun found => (constructQuads [] found).map Row.quad) = .ok rows := hemit
      obtain ⟨found, -, rfl⟩ := exists_of_map_expectSolutions hemit
      simp [constructQuads]
  | idleUnion hidle =>
      refine hidle.imp (fun hnone => hE.silent hop fun n rows hemit => ?_) hunread
      obtain rfl := Except.ok.inj hemit
      have hrows : (G.deliver (E.over n) u).rows.Perm ((G.inputs u).flatMap (E.over n)) :=
        rows_deliver_perm (E.over n)
      rw [hnone] at hrows
      exact List.perm_nil.1 hrows

/-- All that a cascade removes is mute. -/
theorem Traced.mute (h : G.Graded level) (hE : G.Traced src limit level E) (hmem : u ∈ gone)
    (huseless : Silent E u ∨ ∀ y i, G.Reads y i → i.source ≠ u)
    (hexhausts : Exhausts G.operator? G.Reads [] [u] gone) : ∀ x ∈ gone, G.Mute E gone x := by
  have hu : G.Mute E gone u := by
    rcases huseless with hsilent | hunread
    · exact .silent hmem hsilent
    · exact .unread hmem fun y i hi hs => absurd hs (hunread y i hi)
  refine hexhausts.least {x | G.Mute E gone x} ⟨fun x op i hop hremovable hi hsource hall => ?_,
    fun x op y i hop hremovable hy hi hsource hall => ?_⟩ (fun x hx => absurd hx List.not_mem_nil)
    fun x hx op' _ _ => List.mem_singleton.1 hx ▸ hu
  · have hgone : x ∈ gone := hexhausts.closed.starved x op i hop hremovable hi (Mute.mem hsource)
      (hall.imp (fun hall j hj => (hall j hj).mem) fun hall =>
        ⟨hall.1, fun j hj hoperand => (hall.2 j hj hoperand).mem⟩)
    by_contra hx
    refine hx (.silent hgone (hE.silent_of_starved h hop hremovable ?_))
    exact hall.imp (fun hall j hj => (hall j hj).silent_of_reads hj hx) fun hall =>
      ⟨i, hi, hall.1, fun j hj hoperand => (hall.2 j hj hoperand).silent_of_reads hj hx⟩
  · have hgone : x ∈ gone := hexhausts.closed.unread x op y i hop hremovable
      (Mute.mem hy) hi hsource
      fun y' i' hi' hs => (hall y' i' hi' hs).mem
    exact .unread hgone hall

/-- A cascade may remove a useless operator. -/
theorem Traced.pruned {provesEmpty : IndexScan → Bool} (h : G.Graded level)
    (hE : G.Traced src limit level E) (hempty : ∀ s, provesEmpty s = true → src.scan s = [])
    (hop : G.operator? u = some op) (huseless : G.Useless provesEmpty u op) (hmem : u ∈ gone)
    (hexhausts : Exhausts G.operator? G.Reads [] [u] gone) (hsymmetric : G'.Symmetric)
    (hwired : G'.Wired G.slots.length (remaining G.operator? gone) (remainingReads G.Reads gone)) :
    G.Mirrors G' src limit level level E E := by
  have hmute := hE.mute h hmem (hE.silent_of_useless hempty hop huseless) hexhausts
  have hops {x : OperatorId} {op : Operator Plan} (hop : G'.operator? x = some op) :
      x ∉ gone ∧ G.operator? x = some op :=
        remaining_eq_some.1 ((hwired.operator? x).symm.trans hop)
  have hreads {x : OperatorId} {i : Input} (hi : G'.Reads x i) : G.Reads x i :=
    ((hwired.reads x i).1 hi).1
  refine ⟨h.along ⟨hsymmetric, h.threads.thinned (fun x i hi => hreads hi) fun x i hi => ?_⟩ id rfl
      (fun x op' hop' => ⟨op', (hops hop').2, .refl op'⟩) fun x i hi => .direct (hreads hi),
    ⟨hE.zero, fun n x op' hop' => ?step⟩, fun x hx => ⟨x, hx.along h.symmetric.linked
      hsymmetric.linked id fun _ _ hi => .direct (hreads hi)⟩, fun _ _ => id,
    fun x form => ?results, fun _ _ _ => ⟨rfl, fun _ => rfl⟩⟩
  · obtain ⟨op', hop'⟩ := exists_operator?_of_reads hwired.linked hi
    exact ⟨op', op', (hops hop').2, hop', .same op'⟩
  case step =>
    obtain ⟨hx, hop'⟩ := hops hop'
    refine hE.transfer h hop' (f := fun i => if i.source ∈ gone then [] else [i])
      (inputs_perm_flatMap h.symmetric hsymmetric (fun i => ?_) (fun i j _ _ l hli hlj => ?_)
        fun l => ?_) (fun i _ j hj => ?_) (fun hjoin i hi => ?_) fun i hi => ?_
    · split
      · exact List.nodup_nil
      · exact List.nodup_singleton i
    · split at hli
      · cases hli
      · split at hlj
        · cases hlj
        · exact (List.mem_singleton.1 hli).symm.trans (List.mem_singleton.1 hlj)
    · refine (hwired.reads x l).trans ⟨fun hl => ⟨l, hl.1, ?_⟩, ?_⟩
      · rw [if_neg hl.2.2]
        exact List.mem_singleton_self l
      · rintro ⟨i, hi, hl⟩
        split at hl
        · cases hl
        · next hs =>
          obtain rfl := List.mem_singleton.1 hl
          exact ⟨hi, hx, hs⟩
    · split at hj
      · cases hj
      · rw [List.mem_singleton.1 hj]
    · obtain ⟨j, hj, hoperand⟩ := kept_of_pruned hexhausts.pruned hx hop'
        (by simp [hjoin, Operator.kind]) (h.symmetric.linked.mem_inputs.1 hi)
      exact ⟨j, hsymmetric.linked.mem_inputs.2 ((hwired.reads x j).2 hj), hoperand⟩
    · split
      · next hs =>
        have hsilent := (hmute i.source hs).silent_of_reads (h.symmetric.linked.mem_inputs.1 hi)
          fun hx' => hx hx'.mem
        rw [History.over, hsilent]
        exact .refl _ []
      · rw [List.flatMap_singleton]
        exact .refl _ _
  case results =>
    rw [hwired.operator?, remaining_eq_some]
    refine and_iff_right_of_imp fun hx hgone => ?_
    obtain ⟨op', hop', hremovable⟩ := hexhausts.removable x hgone
    obtain rfl := Option.some.inj (hx.symm.trans hop')
    exact hremovable.2 rfl

end Silence

end Graph

end QuadAlgebra
