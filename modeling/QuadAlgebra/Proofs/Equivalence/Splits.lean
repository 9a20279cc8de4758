import QuadAlgebra.Proofs.Equivalence.StandIns
import QuadAlgebra.Proofs.Optimization.Frames
import QuadAlgebra.Proofs.Relocation.Copies

/-!
# Operators with several consumers

An operator is split by giving every consumer but the first a copy of its own. The operator and its
copies then read the same inputs and feed one consumer each, and nothing else changes
(`Graph.Divided`).

A moved edge is the last one of its consumer, so the rows on an operand may come in another order if
several edges lead there. `Graph.Stirred` describes the operators for which this may be so, and
`Graph.Steady` says that none of them depends on the order. All such operators have the rows that
they had, as bags, and the others have the same lists (`PlanRule.split_same_rows`). An operator that
cuts off rows may otherwise keep other ones (`PlanRule.split_cuts_other_row`).
-/

namespace QuadAlgebra

open List (Perm)

/-! ## Moving consumers -/

section CopyOf

variable {α : Type} {first : Nat} {l : List α} {x y : OperatorId} {a : α}

/-- An operator that was there before is no copy. -/
theorem not_copyOf_of_lt (hx : x < first) : ¬ CopyOf first l x a := fun hcopy =>
  Nat.not_lt.2 hcopy.bounds.1 hx

/-- A copy stands for one consumer only. -/
theorem CopyOf.eq_of_nodup (hl : l.Nodup) (h : CopyOf first l x a) (h' : CopyOf first l y a) :
    x = y := by
  obtain ⟨k, hk, rfl⟩ := h
  obtain ⟨k', hk', rfl⟩ := h'
  obtain ⟨hlt, -⟩ := List.getElem?_eq_some_iff.1 hk
  rw [(List.getElem?_inj hlt hl).1 (hk.trans hk'.symm)]

end CopyOf

namespace Graph

variable {γ : Type}

/-- The consumers of an operator but the first. -/
def laterConsumers (g : Graph γ) (id : OperatorId) : List OperatorId :=
  (distinctOf ((g.succeeding id).map Edge.target)).tail

/-- No consumer is moved twice. -/
theorem nodup_laterConsumers {g : Graph γ} {id : OperatorId} : (g.laterConsumers id).Nodup :=
  (nodup_distinctOf _).tail

/-- A moved consumer reads the divided operator. -/
theorem exists_reads_of_mem_laterConsumers {g : Graph γ} {id t : OperatorId}
    (h : t ∈ g.laterConsumers id) : ∃ k f, g.Reads t ⟨id, k, f⟩ := by
  obtain ⟨e, he, rfl⟩ := List.mem_map.1 (mem_distinctOf.1 (List.mem_of_mem_tail h))
  exact ⟨e.operand, e.feedback, he⟩

/-- Later consumers read copies of an operator, which read what it reads. -/
def splitReads (reads : OperatorId → Input → Prop) (first : Nat) (u : OperatorId)
    (moved : List OperatorId) (x : OperatorId) (i : Input) : Prop :=
  (reads x i ∧ ¬ (i.source = u ∧ x ∈ moved)) ∨ (∃ t, CopyOf first moved x t ∧ reads u i) ∨
    CopyOf first moved i.source x ∧ reads x ⟨u, i.operand, i.feedback⟩

section Reads

variable {reads : OperatorId → Input → Prop} {first : Nat} {u t x : OperatorId}
  {done : List OperatorId} {i : Input}

/-- The edges to a consumer are still there when its turn comes. -/
theorem splitReads_unmoved (hu : u < first) (ht : t < first) (hnew : t ∉ done) {k : Nat}
    {f : Bool} : splitReads reads first u done t ⟨u, k, f⟩ ↔ reads t ⟨u, k, f⟩ := by
  constructor
  · rintro (⟨hi, -⟩ | ⟨t', hcopy, -⟩ | ⟨hcopy, -⟩)
    · exact hi
    · exact absurd hcopy (not_copyOf_of_lt ht)
    · exact absurd hcopy (not_copyOf_of_lt hu)
  · exact fun hi => .inl ⟨hi, fun hboth => hnew hboth.2⟩

/-- One more consumer is moved. -/
theorem splitReads_append_singleton (hu : u < first) (ht : t < first) :
    splitReads reads first u (done ++ [t]) x i ↔
      (splitReads reads first u done x i ∨ x = first + done.length ∧ reads u i) ∧
        ¬ (x = t ∧ i.source = u) ∨
      x = t ∧ i.source = first + done.length ∧ reads t ⟨u, i.operand, i.feedback⟩ := by
  unfold splitReads
  rw [exists_copyOf_append, copyOf_append_singleton]
  constructor
  · rintro (⟨hi, hnot⟩ | (⟨t', hcopy, hi⟩ | ⟨hx, hi⟩) | ⟨hcopy | ⟨hs, rfl⟩, hi⟩)
    · exact .inl ⟨.inl (.inl ⟨hi, fun hboth => hnot ⟨hboth.1, List.mem_append_left _ hboth.2⟩⟩),
        fun hboth => hnot ⟨hboth.2, by simp [hboth.1]⟩⟩
    · exact .inl ⟨.inl (.inr (.inl ⟨t', hcopy, hi⟩)), fun hboth =>
        not_copyOf_of_lt ht (hboth.1 ▸ hcopy)⟩
    · exact .inl ⟨.inr ⟨hx, hi⟩, fun hboth =>
        Nat.not_lt.2 (Nat.le_add_right _ _) (hx ▸ hboth.1 ▸ ht)⟩
    · exact .inl ⟨.inl (.inr (.inr ⟨hcopy, hi⟩)), fun hboth =>
        not_copyOf_of_lt hu (hboth.2 ▸ hcopy)⟩
    · exact .inr ⟨rfl, hs, hi⟩
  · rintro (⟨(⟨hi, hdone⟩ | ⟨t', hcopy, hi⟩ | ⟨hcopy, hi⟩) | ⟨hx, hi⟩, hnot⟩ | ⟨rfl, hs, hi⟩)
    · refine .inl ⟨hi, fun hboth => ?_⟩
      rcases List.mem_append.1 hboth.2 with hmem | hmem
      · exact hdone ⟨hboth.1, hmem⟩
      · exact hnot ⟨List.mem_singleton.1 hmem, hboth.1⟩
    · exact .inr (.inl (.inl ⟨t', hcopy, hi⟩))
    · exact .inr (.inr ⟨.inl hcopy, hi⟩)
    · exact .inr (.inl (.inr ⟨hx, hi⟩))
    · exact .inr (.inr ⟨.inr ⟨hs, rfl⟩, hi⟩)

end Reads

end Graph

namespace Reshape

open Edit

variable {γ : Type} {w : Workspace γ} {s t : OperatorId} {op : Operator γ} {size : Nat}
  {ops : OperatorId → Option (Operator γ)} {reads : OperatorId → Input → Prop} {inputs : List Input}

/-- Reading all the inputs adds exactly their reads, if their sources exist. -/
theorem runs_readAll (h : w.graph.Wired size ops reads) (ht : ops t ≠ none)
    (hs : ∀ i ∈ inputs, ops i.source ≠ none) :
    (inputs.forM fun i => connect i.source t i.operand i.feedback).Runs w fun _ w' =>
      w'.graph.Wired size ops fun x i => reads x i ∨ x = t ∧ i ∈ inputs := by
  refine runs_forM_of_step (fun (done : List Input) (w' : Workspace γ) =>
    w'.graph.Wired size ops fun x i => reads x i ∨ x = t ∧ i ∈ done)
      (h.congr (fun _ => rfl) (by simp)) fun done i rest hl w' h' => ?_
  refine (runs_connect h' i.operand i.feedback (hs i (by simp [hl])) ht).mono fun _ w'' h'' =>
    h''.congr (fun _ => rfl) fun x j => ?_
  simp only [List.mem_append, List.mem_singleton, and_or_left, or_assoc]

/-- A consumer reads a new copy in the place of an operator. -/
theorem runs_moveConsumer (h : w.graph.Wired size ops reads) (op : Operator γ) (hs : ops s ≠ none)
    (ht : ops t ≠ none) (hinputs : ∀ i ∈ inputs, ops i.source ≠ none) :
    (PlanRule.moveConsumer s op inputs t).Runs w fun _ w' =>
      w'.graph.Wired (size + 1) (fun x => if x = size then some op else ops x) fun x i =>
        (reads x i ∨ x = size ∧ i ∈ inputs) ∧ ¬ (x = t ∧ i.source = s) ∨
          x = t ∧ i.source = size ∧ reads t ⟨s, i.operand, i.feedback⟩ := by
  have hedge (e : Edge) : e ∈ (w.graph.succeeding s).filter (·.target == t) ↔
      e.target = t ∧ reads t ⟨s, e.operand, e.feedback⟩ := by
    rw [List.mem_filter, beq_iff_eq, h.mem_succeeding, and_comm]
    exact and_congr_right fun he => by rw [he]
  have hlive {x : OperatorId} (hx : ops x ≠ none) :
      (if x = size then some op else ops x) ≠ none := by
    split
    · exact Option.some_ne_none _
    · exact hx
  unfold PlanRule.moveConsumer
  refine runs_bind.2 (runs_look ((runs_add h op).bind fun n w₁ h₁ => ?_))
  obtain ⟨rfl, h₁⟩ := h₁
  refine (runs_readAll h₁ (by simp) fun i hi => hlive (hinputs i hi)).bind fun _ w₂ h₂ => ?_
  refine (runs_disconnect h₂ (hlive hs) (hlive ht)).bind fun _ w₃ h₃ => ?_
  refine (runs_feedAll h₃ (by simp) fun e he => ?_).mono fun _ w₄ h₄ =>
    h₄.congr (fun _ => rfl) fun x i => or_congr_right ?_
  · rw [((hedge e).1 he).1]
    exact hlive ht
  · constructor
    · rintro ⟨e, he, rfl, rfl⟩
      obtain ⟨htarget, hread⟩ := (hedge e).1 he
      exact ⟨htarget, rfl, hread⟩
    · rintro ⟨rfl, hsource, hread⟩
      exact ⟨⟨x, i.operand, i.feedback⟩, (hedge _).2 ⟨rfl, hread⟩, rfl, by rw [← hsource]⟩

end Reshape

namespace PlanRule

open Edit Reshape

variable {γ : Type} {g : Graph γ} {w : Workspace γ} {id : OperatorId} {op : Operator γ}

/-- The operator is of the wanted kind and has several consumers. -/
theorem exists_of_split_match {name : String} {kind : Kind} {m : Match}
    (hm : (split name kind).match? g id = some m) : g.kind? id = some kind ∧
      g.laterConsumers id ≠ [] ∧ m = (Match.only id).bindAll .moved (g.laterConsumers id) := by
  simp only [split] at hm
  split at hm
  · cases hm
  · next hkind =>
    unfold Graph.laterConsumers
    split at hm
    · cases hm
    · cases hm
    · next hrest hl =>
      rw [hl]
      exact ⟨by simpa using hkind, hrest, (Option.some.inj hm).symm⟩

/-- An operator with one consumer is not split. -/
theorem split_match_eq_none (name : String) (kind : Kind) {t : OperatorId}
    (h : ∀ e ∈ g.succeeding id, e.target = t) : (split name kind).match? g id = none := by
  simp only [split]
  split
  · rfl
  · split
    · rfl
    · rfl
    · next a rest hrest hl =>
      obtain ⟨b, rest, rfl⟩ := List.exists_cons_of_ne_nil hrest
      have honly (y : OperatorId) (hy : y ∈ a :: b :: rest) : y = t := by
        rw [← hl, mem_distinctOf] at hy
        obtain ⟨e, he, rfl⟩ := List.mem_map.1 hy
        exact h e he
      have hnodup := nodup_distinctOf ((g.succeeding id).map Edge.target)
      rw [hl, List.nodup_cons, honly a (by simp), honly b (by simp)] at hnodup
      exact absurd List.mem_cons_self hnodup.1

/-- Every later consumer gets a copy of its own. -/
theorem split_runs (name : String) (kind : Kind) (h : w.graph.Linked)
    (hop : w.graph.operator? id = some op) :
    ((split name kind).replace ((Match.only id).bindAll .moved (w.graph.laterConsumers id))).Runs w
      fun _ w' => w'.graph.Wired (w.graph.slots.length + (w.graph.laterConsumers id).length)
        (withCopies w.graph.operator? w.graph.slots.length (w.graph.laterConsumers id).length op)
        (Graph.splitReads w.graph.Reads w.graph.slots.length id (w.graph.laterConsumers id)) := by
  have hwired := Graph.Wired.of_linked h
  have hlt : id < w.graph.slots.length := hwired.lt_of_ne_none (by simp [hop])
  have hconsumer (t : OperatorId) (ht : t ∈ w.graph.laterConsumers id) :
      w.graph.operator? t ≠ none := by
    obtain ⟨k, f, hread⟩ := Graph.exists_reads_of_mem_laterConsumers ht
    exact (hwired.ends_of_reads hread).1
  have hnodup : (w.graph.laterConsumers id).Nodup := Graph.nodup_laterConsumers
  simp only [split, Match.all_bindAll, Match.all_only, List.nil_append, if_true,
    Match.root_bindAll, Match.root_only]
  refine runs_bind.2 (runs_operator hop (runs_bind.2 (runs_look ?_)))
  generalize w.graph.slots.length = size at *
  refine runs_forM_of_step (fun (done : List OperatorId) (w' : Workspace γ) =>
    w'.graph.Wired (size + done.length) (withCopies w.graph.operator? size done.length op)
      (Graph.splitReads w.graph.Reads size id done))
    (hwired.congr (fun x => withCopies_zero.symm) fun x i => by simp [Graph.splitReads])
    fun done t rest hl w₁ h₁ => ?_
  have hlive {x : OperatorId} (hx : w.graph.operator? x ≠ none) :
      withCopies w.graph.operator? size done.length op x ≠ none := by
    rwa [withCopies_of_lt (hwired.lt_of_ne_none hx)]
  have ht : w.graph.operator? t ≠ none := hconsumer t (by simp [hl])
  have hnew : t ∉ done := by
    rw [hl, List.nodup_middle, List.nodup_cons] at hnodup
    exact fun hmem => hnodup.1 (List.mem_append_left _ hmem)
  refine (runs_moveConsumer h₁ op (hlive (by simp [hop])) (hlive ht) fun i hi =>
    hlive (hwired.ends_of_reads (hwired.mem_inputs.1 hi)).2).mono fun _ w₂ h₂ => ?_
  rw [List.length_append, List.length_singleton, ← Nat.add_assoc]
  refine h₂.congr (fun x => withCopies_succ) fun x i => ?_
  have htlt := hwired.lt_of_ne_none ht
  rw [Graph.splitReads_append_singleton hlt htlt, Graph.splitReads_unmoved hlt htlt hnew,
    hwired.mem_inputs]

/-- Operators that lose no consumer's edge keep their inputs. -/
theorem split_spares (name : String) (kind : Kind) {x : OperatorId} (hlt : x < w.graph.slots.length)
    (hx : x ∉ w.graph.laterConsumers id) :
    ((split name kind).replace ((Match.only id).bindAll .moved (w.graph.laterConsumers id))).Ends w
      fun _ w' => w.Spares x w' := by
  simp only [split, Match.all_bindAll, Match.all_only, List.nil_append, if_true,
    Match.root_bindAll, Match.root_only]
  refine ends_bind.2 (ends_operator.2 fun op _ => ends_bind.2 (ends_look.2 ?_))
  refine ends_forM (Workspace.Spares x) fun t ht w₁ h₁ => ?_
  have htx : t ≠ x := fun he => hx (he ▸ ht)
  unfold moveConsumer
  refine ends_bind.2 (ends_look.2 ((add_spares_of_lt op (hlt.trans_le h₁.length)).bind
    fun n w₂ h₂ => ?_))
  obtain ⟨h₂, hn⟩ := h₂
  refine (ends_forM (Workspace.Spares x) fun i _ _ _ => connect_spares _ _ hn).bind
    fun _ w₃ h₃ => ?_
  refine (disconnect_spares htx).bind fun _ w₄ h₄ => ?_
  refine (feedAll_spares fun e he => ?_).mono fun _ w₅ h₅ =>
    ((h₂.trans h₃).trans h₄).trans h₅
  rw [beq_iff_eq.1 (List.mem_filter.1 he).2]
  exact htx

end PlanRule

/-! ## Divided consumers -/

namespace Graph

variable {γ : Type} {g g' : Graph γ} {id x c : OperatorId} {op : Operator γ} {i : Input}

/-- An operator and the copies of it, one for each later consumer. -/
def heads (g : Graph γ) (id : OperatorId) : List OperatorId :=
  id :: List.range' g.slots.length (g.laterConsumers id).length

/-- The consumers of an operator have been divided among the operator and copies of it. -/
structure Divided (g g' : Graph γ) (id : OperatorId) : Prop where
  /-- The copies are new. -/
  fresh : ∀ c ∈ g.heads id, c ≠ id → g.operator? c = none
  operator? : ∀ x, g'.operator? x = if x ∈ g.heads id then g.operator? id else g.operator? x
  reads : ∀ c ∈ g.heads id, ∀ i, g'.Reads c i ↔ g.Reads id i
  /-- Each of them is read by one former consumer, as the operator was. -/
  feeds : ∀ c ∈ g.heads id, ∃ x, (∃ k f, g.Reads x ⟨id, k, f⟩) ∧
    ∀ y k f, g'.Reads y ⟨c, k, f⟩ ↔ y = x ∧ g.Reads x ⟨id, k, f⟩
  /-- Each former consumer reads one of them, as it read the operator. -/
  fed : ∀ x, (∃ k f, g.Reads x ⟨id, k, f⟩) → ∃ c ∈ g.heads id,
    ∀ d ∈ g.heads id, ∀ k f, g'.Reads x ⟨d, k, f⟩ ↔ d = c ∧ g.Reads x ⟨id, k, f⟩
  /-- Nothing else has changed. -/
  others : ∀ x ∉ g.heads id, ∀ i, i.source ∉ g.heads id → (g'.Reads x i ↔ g.Reads x i)

/-- The operator that stands for another one at one of its consumers after a split. -/
def Serves (g : Graph γ) (id x c : OperatorId) : Prop :=
  x ∉ g.laterConsumers id ∧ c = id ∨ CopyOf g.slots.length (g.laterConsumers id) c x

/-- Every consumer is served by the operator itself or by a copy. -/
theorem exists_serves (g : Graph γ) (id x : OperatorId) : ∃ c, g.Serves id x c := by
  by_cases hx : x ∈ g.laterConsumers id
  · exact (exists_copyOf _ hx).imp fun _ hc => .inr hc
  · exact ⟨id, .inl ⟨hx, rfl⟩⟩

/-- A consumer is served by one operator. -/
theorem Serves.unique {d : OperatorId} (h : g.Serves id x c) (h' : g.Serves id x d) : c = d := by
  rcases h with ⟨hx, rfl⟩ | hc
  · rcases h' with ⟨-, rfl⟩ | hd
    · rfl
    · exact absurd hd.mem hx
  · rcases h' with ⟨hx, -⟩ | hd
    · exact absurd hc.mem hx
    · exact hc.eq_of_nodup nodup_laterConsumers hd

/-- The heads are the operator and its copies. -/
theorem mem_heads : c ∈ g.heads id ↔
    c = id ∨ ∃ t, CopyOf g.slots.length (g.laterConsumers id) c t := by
  rw [heads, List.mem_cons, List.mem_range'_1]
  refine or_congr_right ⟨fun hc => exists_of_copy_bounds hc.1 hc.2, ?_⟩
  rintro ⟨t, hcopy⟩
  exact hcopy.bounds

/-- What serves a consumer is a head. -/
theorem Serves.mem_heads (h : g.Serves id x c) : c ∈ g.heads id := by
  rcases h with ⟨-, rfl⟩ | hc
  · exact List.mem_cons_self
  · exact Graph.mem_heads.2 (.inr ⟨x, hc⟩)

/-- The first consumer and the later ones are all the consumers that there are. -/
theorem exists_first_consumer (h : g.laterConsumers id ≠ []) : ∃ t, t ∉ g.laterConsumers id ∧
    ∀ x, (∃ k f, g.Reads x ⟨id, k, f⟩) ↔ x = t ∨ x ∈ g.laterConsumers id := by
  have hmem (x : OperatorId) : x ∈ distinctOf ((g.succeeding id).map Edge.target) ↔
      ∃ k f, g.Reads x ⟨id, k, f⟩ := by
    rw [mem_distinctOf, List.mem_map]
    constructor
    · rintro ⟨e, he, rfl⟩
      exact ⟨e.operand, e.feedback, he⟩
    · rintro ⟨k, f, he⟩
      exact ⟨_, he, rfl⟩
  have hnodup := nodup_distinctOf ((g.succeeding id).map Edge.target)
  unfold laterConsumers at h ⊢
  cases hl : distinctOf ((g.succeeding id).map Edge.target) with
  | nil => simp [hl] at h
  | cons t rest =>
      rw [hl, List.nodup_cons] at hnodup
      refine ⟨t, hnodup.1, fun x => ?_⟩
      rw [← hmem, hl, List.mem_cons, List.tail_cons]

/-- Each of the operators that share the consumers serves one of them. -/
theorem exists_served (h : g.laterConsumers id ≠ []) (hlt : id < g.slots.length)
    (hc : c ∈ g.heads id) : ∃ x, (∃ k f, g.Reads x ⟨id, k, f⟩) ∧
      ∀ y k f, g.Reads y ⟨id, k, f⟩ → (g.Serves id y c ↔ y = x) := by
  obtain ⟨t, ht, hconsumers⟩ := exists_first_consumer h
  rcases mem_heads.1 hc with rfl | ⟨x, hcopy⟩
  · refine ⟨t, (hconsumers t).2 (.inl rfl), fun y k f hi => ⟨?_, ?_⟩⟩
    · rintro (⟨hy, -⟩ | hcopy)
      · exact ((hconsumers y).1 ⟨k, f, hi⟩).resolve_right hy
      · exact absurd hcopy (not_copyOf_of_lt hlt)
    · rintro rfl
      exact .inl ⟨ht, rfl⟩
  · refine ⟨x, (hconsumers x).2 (.inr hcopy.mem), fun y k f _ => ⟨?_, ?_⟩⟩
    · rintro (⟨-, rfl⟩ | hcopy')
      · exact absurd hcopy (not_copyOf_of_lt hlt)
      · exact hcopy'.unique hcopy
    · rintro rfl
      exact .inr hcopy

/-- A graph in which an operator has been split. -/
structure Split (g g' : Graph γ) (id : OperatorId) (op : Operator γ) : Prop where
  linked : g.Linked
  apart : ∀ i, g.Reads id i → i.source ≠ id
  operator : g.operator? id = some op
  wired : g'.Wired (g.slots.length + (g.laterConsumers id).length)
    (withCopies g.operator? g.slots.length (g.laterConsumers id).length op)
    (splitReads g.Reads g.slots.length id (g.laterConsumers id))

namespace Split

/-- The divided operator has a slot. -/
theorem lt (h : g.Split g' id op) : id < g.slots.length :=
  (Wired.of_linked h.linked).lt_of_ne_none (by simp [h.operator])

/-- Both ends of a read have slots in the old graph. -/
theorem lt_of_reads (h : g.Split g' id op) (hi : g.Reads x i) :
    x < g.slots.length ∧ i.source < g.slots.length := by
  have hwired := Wired.of_linked h.linked
  have hends := hwired.ends_of_reads hi
  exact ⟨hwired.lt_of_ne_none hends.1, hwired.lt_of_ne_none hends.2⟩

/-- Every head holds the operator, every other slot what it held. -/
theorem operator?_eq_ite (h : g.Split g' id op) (x : OperatorId) :
    g'.operator? x = if x ∈ g.heads id then g.operator? id else g.operator? x := by
  rw [h.wired.operator?, withCopies, h.operator, heads]
  by_cases hx : x = id
  · subst hx
    rw [if_neg fun hbounds => absurd h.lt (Nat.not_lt.2 hbounds.1), if_pos List.mem_cons_self,
      h.operator]
  · simp only [List.mem_cons, hx, false_or, List.mem_range'_1]

/-- A copy reads what the divided operator reads. -/
theorem reads_copy (h : g.Split g' id op)
    {t : OperatorId} (hc : CopyOf g.slots.length (g.laterConsumers id) c t) :
    g'.Reads c i ↔ g.Reads id i := by
  rw [h.wired.reads]
  constructor
  · rintro (⟨hi, -⟩ | ⟨-, -, hi⟩ | ⟨-, hi⟩)
    · exact absurd hc (not_copyOf_of_lt (h.lt_of_reads hi).1)
    · exact hi
    · exact absurd hc (not_copyOf_of_lt (h.lt_of_reads hi).1)
  · exact fun hi => .inr (.inl ⟨t, hc, hi⟩)

/-- What was there before reads what it read, with another operator in the place of the one that has
been split. -/
theorem reads_iff (h : g.Split g' id op) (hx : x < g.slots.length) (hc : g.Serves id x c) :
    g'.Reads x i ↔ (g.Reads x i ∧ i.source ≠ id) ∨
      (i.source ∈ [c] ∧ g.Reads x ⟨id, i.operand, i.feedback⟩) := by
  rw [h.wired.reads, List.mem_singleton]
  constructor
  · rintro (⟨hi, hnot⟩ | ⟨t, hcopy, -⟩ | ⟨hcopy, hi⟩)
    · by_cases hs : i.source = id
      · have hnew : x ∉ g.laterConsumers id := fun hmem => hnot ⟨hs, hmem⟩
        obtain rfl : c = id := hc.unique (.inl ⟨hnew, rfl⟩)
        exact .inr ⟨hs, by rwa [← hs]⟩
      · exact .inl ⟨hi, hs⟩
    · exact absurd hcopy (not_copyOf_of_lt hx)
    · exact .inr ⟨Serves.unique (.inr hcopy) hc, hi⟩
  · rintro (⟨hi, hs⟩ | ⟨hs, hi⟩)
    · exact .inl ⟨hi, fun hboth => hs hboth.1⟩
    · rcases hc with ⟨hnew, rfl⟩ | hcopy
      · refine .inl ⟨?_, fun hboth => hnew hboth.2⟩
        rwa [← hs] at hi
      · exact .inr (.inr ⟨hs ▸ hcopy, hi⟩)

/-- The operator and its copies are read by those that they serve, as the operator was. -/
theorem reads_head_iff (h : g.Split g' id op) {y d : OperatorId} {k : Nat} {f : Bool}
    (hd : d ∈ g.heads id) :
    g'.Reads y ⟨d, k, f⟩ ↔ g.Serves id y d ∧ g.Reads y ⟨id, k, f⟩ := by
  by_cases hy : y < g.slots.length
  · obtain ⟨c, hc⟩ := g.exists_serves id y
    rw [h.reads_iff hy hc]
    constructor
    · rintro (⟨hi, hs⟩ | ⟨hs, hi⟩)
      · obtain ⟨t, hcopy⟩ := (mem_heads.1 hd).resolve_left hs
        exact absurd hcopy (not_copyOf_of_lt (h.lt_of_reads hi).2)
      · obtain rfl : d = c := List.mem_singleton.1 hs
        exact ⟨hc, hi⟩
    · rintro ⟨hserves, hi⟩
      exact .inr ⟨List.mem_singleton.2 (hserves.unique hc), hi⟩
  · refine iff_of_false (fun hi => ?_) fun hboth => hy (h.lt_of_reads hboth.2).1
    rcases (h.wired.reads _ _).1 hi with ⟨hi, -⟩ | ⟨-, -, hi⟩ | ⟨-, hi⟩
    · exact hy (h.lt_of_reads hi).1
    · rcases mem_heads.1 hd with rfl | ⟨t, hcopy⟩
      · exact h.apart _ hi rfl
      · exact not_copyOf_of_lt (h.lt_of_reads hi).2 hcopy
    · exact hy (h.lt_of_reads hi).1

/-- A split with a consumer to move divides the graph. -/
theorem divided (h : g.Split g' id op) (hlater : g.laterConsumers id ≠ []) : g.Divided g' id where
  fresh c hc hne := by
    obtain ⟨t, hcopy⟩ := (mem_heads.1 hc).resolve_left hne
    exact (Wired.of_linked h.linked).eq_none_of_le hcopy.bounds.1
  operator? := h.operator?_eq_ite
  reads c hc i := by
    rcases mem_heads.1 hc with rfl | ⟨t, hcopy⟩
    · rw [h.wired.reads]
      constructor
      · rintro (⟨hi, -⟩ | ⟨t, hcopy, -⟩ | ⟨hcopy, hi⟩)
        · exact hi
        · exact absurd hcopy (not_copyOf_of_lt h.lt)
        · exact absurd rfl (h.apart _ hi)
      · exact fun hi => .inl ⟨hi, fun hboth => h.apart _ hi hboth.1⟩
    · exact h.reads_copy hcopy
  feeds c hc := by
    obtain ⟨x, hx, hserved⟩ := exists_served hlater h.lt hc
    refine ⟨x, hx, fun y k f => (h.reads_head_iff hc).trans ?_⟩
    constructor
    · rintro ⟨hserves, hi⟩
      obtain rfl := (hserved y k f hi).1 hserves
      exact ⟨rfl, hi⟩
    · rintro ⟨rfl, hi⟩
      exact ⟨(hserved y k f hi).2 rfl, hi⟩
  fed x hx := by
    obtain ⟨c, hc⟩ := g.exists_serves id x
    refine ⟨c, hc.mem_heads, fun d hd k f => ?_⟩
    rw [h.reads_head_iff hd]
    refine and_congr_left fun _ => ⟨fun hserves => hserves.unique hc, ?_⟩
    rintro rfl
    exact hc
  others x hx i hi := by
    rw [h.wired.reads]
    constructor
    · rintro (⟨hread, -⟩ | ⟨t, hcopy, -⟩ | ⟨hcopy, -⟩)
      · exact hread
      · exact absurd (mem_heads.2 (.inr ⟨t, hcopy⟩)) hx
      · exact absurd (mem_heads.2 (.inr ⟨x, hcopy⟩)) hi
    · exact fun hread => .inl ⟨hread, fun hboth => hi (hboth.1 ▸ List.mem_cons_self)⟩

end Split

/-! ## The order of rows -/

/-- Several edges lead to one operand of the operator. -/
def Crowded (g : Graph γ) (x : OperatorId) : Prop :=
  ∃ i j, g.Reads x i ∧ g.Reads x j ∧ i ≠ j ∧ i.operand = j.operand

/-- The rows of the operator may come in another order after a split: it is a consumer that has been
moved, where several edges lead to one operand of it or of the operator that has been split, or it
reads such rows. -/
inductive Stirred (g : Graph γ) (id : OperatorId) : OperatorId → Prop
  | moved {x : OperatorId} (hx : x ∈ g.laterConsumers id) (h : g.Crowded id ∨ g.Crowded x) :
    Stirred g id x
  | reads {x : OperatorId} {i : Input} (hi : g.Reads x i) (h : Stirred g id i.source) :
    Stirred g id x

/-- Up to the given operator, none depends on an order of rows that may have changed. -/
def Steady (g : Graph γ) (id x : OperatorId) : Prop :=
  ∀ y op, Relation.ReflTransGen g.Leads y x → g.operator? y = some op → g.Stirred id y →
    op.IgnoresOrder

/-- What comes behind rows in another order may come in another order. -/
theorem Stirred.of_leads {y : OperatorId} (h : g.Stirred id y) (hlinked : g.Linked)
    (hy : Relation.ReflTransGen g.Leads y x) : g.Stirred id x := by
  induction hy with
  | refl => exact h
  | tail _ hxy ih =>
      obtain ⟨i, hi, rfl⟩ := (leads_iff hlinked).1 hxy
      exact .reads hi ih

/-- On a linked graph what does not stir is steady. -/
theorem steady_of_not_stirred (hlinked : g.Linked) (hx : ¬ g.Stirred id x) : g.Steady id x :=
  fun _ _ hy _ hstir => absurd (hstir.of_leads hlinked hy) hx

/-- What a steady operator reads is steady. -/
theorem Steady.source (h : g.Steady id x) (hlinked : g.Linked) (hi : g.Reads x i) :
    g.Steady id i.source := fun y op hy =>
  h y op (hy.tail ((leads_iff hlinked).2 ⟨i, hi, rfl⟩))

/-- Inputs that do not share operands are in ascending order. -/
theorem ascending_of_not_crowded (h : g.Symmetric) (hx : ¬ g.Crowded x) :
    (g.inputs x).Pairwise fun i j => i.operand < j.operand := by
  obtain ⟨hnodup, -, hsorted⟩ := h.inputs_spec x
  refine (hnodup.and hsorted).imp_of_mem fun {i j} hi hj hboth => ?_
  refine Nat.lt_of_le_of_ne hboth.2 fun he => hx ⟨i, j, ?_, ?_, hboth.1, he⟩
  · exact h.linked.mem_inputs.1 hi
  · exact h.linked.mem_inputs.1 hj

/-- What is read in the place of an input: another operator in the place of one. -/
def standIn (u c : OperatorId) (i : Input) : Input :=
  if i.source = u then ⟨c, i.operand, i.feedback⟩ else i

/-- With one head there is one stand-in for each input. -/
theorem standIns_singleton (u c : OperatorId) (i : Input) : standIns u [c] i = [standIn u c i] := by
  unfold standIns standIn
  split <;> rfl

/-- The same for a list of inputs. -/
theorem flatMap_standIns_singleton (u c : OperatorId) (l : List Input) :
    l.flatMap (standIns u [c]) = l.map (standIn u c) := by
  rw [List.map_eq_flatMap]
  exact List.flatMap_congr fun i _ => standIns_singleton u c i

/-- A stand-in feeds the operand of what it stands for. -/
@[simp] theorem operand_standIn (u c : OperatorId) (i : Input) :
    (standIn u c i).operand = i.operand := by
  unfold standIn
  split <;> rfl

/-- An operator standing in for itself changes no input. -/
theorem map_standIn_self (u : OperatorId) (l : List Input) : l.map (standIn u u) = l := by
  refine List.map_id'' (fun i => ?_) l
  unfold standIn
  split
  · next h => rw [← h]
  · rfl

end Graph

namespace Graph

variable {G G' : Graph Plan} {src : Source} {limit : Nat} {id x c : OperatorId} {op : Operator Plan}
  {rows : List Row} {i : Input}

/-- A graph without feedback edges in which an operator has been split. -/
structure ForwardSplit (G G' : Graph Plan) (id : OperatorId) (op : Operator Plan) : Prop
    extends G.Split G' id op where
  symmetric : G.Symmetric
  symmetric' : G'.Symmetric
  forward : G.Forward
  ignoresOrder : op.IgnoresOrder
  spared : ∀ x < G.slots.length, x ∉ G.laterConsumers id → G'.inputs x = G.inputs x

/-- A copy has the rows of the operator that it is a copy of, in the same order if they read their
inputs in the same order. -/
theorem Produces.of_copy (h : G.Produces src limit id rows) (hop : G.operator? id = some op)
    (hop' : G.operator? c = some op) (horder : op.IgnoresOrder)
    (hinputs : (G.inputs c).Perm (G.inputs id)) :
    ∃ rows', G.Produces src limit c rows' ∧ rows.Perm rows' ∧
      (G.inputs c = G.inputs id → rows' = rows) := by
  cases h with
  | root hroot =>
      obtain rfl := Option.some.inj (hop.symm.trans hroot)
      exact ⟨_, .root hop', .refl _, fun _ => rfl⟩
  | emits read hop₀ hforward hread hemit =>
      obtain rfl := Option.some.inj (hop.symm.trans hop₀)
      have halike : (G.deliver read id).Alike (G.deliver read c) := by
        refine deliver_alike (f := fun i => [i]) (by simpa using hinputs) (fun i _ j hj => ?_)
          (fun _ _ => List.cons_ne_nil _ _) fun i _ => ?_
        · rw [List.mem_singleton.1 hj]
        · rw [List.flatMap_singleton]
      obtain ⟨rows', hemit', hperm⟩ := Operator.emit_perm
        ((Operator.ignoresOrder_withNested op _).2 horder) src halike _ hemit
      refine ⟨rows', .emits read hop' (fun i hi => hforward i (hinputs.mem_iff.1 hi))
        (fun i hi => hread i (hinputs.mem_iff.1 hi)) (Operator.emit_okLike src _ _ _ hemit'), hperm,
          fun hsame => ?_⟩
      rw [deliver, operandGroups, hsame] at hemit'
      exact Except.ok.inj (hemit'.symm.trans hemit)

namespace ForwardSplit

/-- What the old graph holds has a slot in it. -/
theorem lt_of_operator? (h : G.ForwardSplit G' id op) {op' : Operator Plan}
    (hx : G.operator? x = some op') : x < G.slots.length :=
  (Wired.of_linked h.linked).lt_of_ne_none (by simp [hx])

/-- The operators of the old graph stay. -/
theorem operator?_eq (h : G.ForwardSplit G' id op) (hx : x < G.slots.length) :
    G'.operator? x = G.operator? x := by
  rw [h.wired.operator?, withCopies_of_lt hx]

/-- In a forward graph no operator is its own consumer. -/
theorem not_mem_laterConsumers (h : G.ForwardSplit G' id op) : id ∉ G.laterConsumers id := by
  intro hmem
  obtain ⟨k, f, hread⟩ := exists_reads_of_mem_laterConsumers hmem
  exact h.apart _ hread rfl

/-- The edges of the operator have become edges of the one that serves in its place. -/
theorem inputs_perm (h : G.ForwardSplit G' id op) (hx : x < G.slots.length)
    (hc : G.Serves id x c) : (G'.inputs x).Perm ((G.inputs x).flatMap (standIns id [c])) := by
  rcases hc with ⟨hnew, rfl⟩ | hcopy
  · rw [h.spared x hx hnew, flatMap_standIns_singleton, map_standIn_self]
  · refine inputs_perm_standIns h.symmetric h.symmetric' (List.nodup_singleton c)
      (fun j => h.reads_iff hx (.inr hcopy)) fun s hs k f _ hread => ?_
    obtain rfl := List.mem_singleton.1 hs
    exact not_copyOf_of_lt (h.lt_of_reads hread).2 hcopy

/-- The order of edges has not changed if those that lead to a moved consumer do not share
operands. -/
theorem inputs_eq (h : G.ForwardSplit G' id op) (hx : x < G.slots.length)
    (hc : G.Serves id x c) (hcrowd : x ∈ G.laterConsumers id → ¬ G.Crowded x) :
    G'.inputs x = (G.inputs x).map (standIn id c) := by
  rcases hc with ⟨hnew, rfl⟩ | hcopy
  · rw [h.spared x hx hnew, map_standIn_self]
  · have hperm := h.inputs_perm hx (.inr hcopy)
    rw [flatMap_standIns_singleton] at hperm
    refine Graph.inputs_eq h.symmetric'.nodup ?_ fun i => hperm.mem_iff
    rw [List.pairwise_map]
    simpa using ascending_of_not_crowded h.symmetric (hcrowd hcopy.mem)

/-- A copy reads what the operator reads. -/
theorem inputs_copy (h : G.ForwardSplit G' id op)
    {t : OperatorId} (hc : CopyOf G.slots.length (G.laterConsumers id) c t) :
    (G'.inputs c).Perm (G'.inputs id) ∧ (¬ G.Crowded id → G'.inputs c = G'.inputs id) := by
  have hmem (i : Input) : i ∈ G'.inputs c ↔ i ∈ G.inputs id := by
    rw [h.wired.linked.mem_inputs, h.linked.mem_inputs]
    exact h.reads_copy hc
  rw [h.spared id h.lt h.not_mem_laterConsumers]
  refine ⟨?_, fun hcrowd => ?_⟩
  · exact (List.perm_ext_iff_of_nodup (h.symmetric'.inputs_spec c).1
      (h.symmetric.inputs_spec id).1).2 hmem
  · exact Graph.inputs_eq h.symmetric'.nodup (ascending_of_not_crowded h.symmetric hcrowd) hmem

/-- Splitting keeps a graph forward. -/
theorem forward' (h : G.ForwardSplit G' id op) : G'.Forward := by
  intro s e he
  rcases (h.wired.reads e.target ⟨s, e.operand, e.feedback⟩).1 he with
    ⟨hi, -⟩ | ⟨-, -, hi⟩ | ⟨-, hi⟩
  · exact h.forward s _ hi
  · exact h.forward s ⟨id, e.operand, e.feedback⟩ hi
  · exact h.forward id ⟨e.target, e.operand, e.feedback⟩ hi

/-- A copy produces the rows of the divided operator. -/
theorem produces_copy (h : G.ForwardSplit G' id op) (hrows : G'.Produces src limit id rows)
    {t : OperatorId} (hc : CopyOf G.slots.length (G.laterConsumers id) c t) :
    ∃ rows', G'.Produces src limit c rows' ∧ rows.Perm rows' ∧
      (¬ G.Crowded id → rows' = rows) := by
  have hinputs := h.inputs_copy hc
  obtain ⟨rows', hrows', hperm, hsame⟩ := hrows.of_copy
    ((h.operator?_eq h.lt).trans h.operator)
    ((h.wired.operator? c).trans (withCopies_of_copyOf hc)) h.ignoresOrder hinputs.1
  exact ⟨rows', hrows', hperm, fun hcrowd => hsame (hinputs.2 hcrowd)⟩

/-- What is read in the place of an input has its rows, and in the same order if the order of the
reader's rows has not changed. -/
theorem produces_standIn (h : G.ForwardSplit G' id op) (hc : G.Serves id x c) (hi : G.Reads x i)
    (hrows : ∃ rows', G'.Produces src limit i.source rows' ∧ rows.Perm rows' ∧
      (¬ G.Stirred id i.source → rows' = rows)) :
    ∃ rows', G'.Produces src limit (standIn id c i).source rows' ∧ rows.Perm rows' ∧
      (¬ G.Stirred id x → rows' = rows) := by
  obtain ⟨rows', hrows', hperm, hsame⟩ := hrows
  have hcalm (hx : ¬ G.Stirred id x) : ¬ G.Stirred id i.source := fun hs => hx (.reads hi hs)
  unfold standIn
  split
  · next hid =>
    rcases hc with ⟨-, rfl⟩ | hcopy
    · exact ⟨rows', hid ▸ hrows', hperm, fun hx => hsame (hcalm hx)⟩
    · obtain ⟨rows'', hrows'', hperm', hsame'⟩ := h.produces_copy (hid ▸ hrows') hcopy
      refine ⟨rows'', hrows'', hperm.trans hperm', fun hx => ?_⟩
      rw [hsame' fun hcrowd => hx (.moved hcopy.mem (.inl hcrowd)), hsame (hcalm hx)]
  · exact ⟨rows', hrows', hperm, fun hx => hsame (hcalm hx)⟩

/-- Up to where operators depend on an order that may have changed, everything has the rows that it
had, and in the same order if that has not changed. -/
theorem produces (h : G.ForwardSplit G' id op) (hrows : G.Produces src limit x rows)
    (hsteady : G.Steady id x) : ∃ rows', G'.Produces src limit x rows' ∧ rows.Perm rows' ∧
      (¬ G.Stirred id x → rows' = rows) := by
  induction hrows with
  | @root x hroot =>
      refine ⟨_, .root ?_, .refl _, fun _ => rfl⟩
      rw [h.operator?_eq (h.lt_of_operator? hroot), hroot]
  | @emits x op' rows read hop hforward hread hemit ih =>
      have hproduces : G.Produces src limit x rows := .emits read hop hforward hread hemit
      have hx := h.lt_of_operator? hop
      have hop' : G'.operator? x = some op' := (h.operator?_eq hx).trans hop
      obtain ⟨c, hc⟩ := G.exists_serves id x
      have hsource (i : Input) (hi : i ∈ G.inputs x) : ∃ rows',
          G'.Produces src limit (standIn id c i).source rows' ∧ (read i).Perm rows' ∧
            (¬ G.Stirred id x → rows' = read i) :=
        have hreads := h.linked.mem_inputs.1 hi
        h.produces_standIn hc hreads (ih i hi (hsteady.source h.linked hreads))
      -- either the operator does not care about the order, or the same lists arrive as before
      by_cases hstir : G.Stirred id x
      · refine (hproduces.of_standIns hop hop' (hsteady x op' .refl hop hstir) (h.inputs_perm hx hc)
          (List.cons_ne_nil _ _) (h.forward'.inputs h.symmetric'.linked) (fun j hj => ?_)
            fun i hi => ?_).imp fun rows' hrows' =>
              ⟨hrows'.1, hrows'.2, fun hcalm => absurd hstir hcalm⟩
        · have hj := (h.inputs_perm hx hc).mem_iff.1 hj
          rw [flatMap_standIns_singleton] at hj
          obtain ⟨i, hi, rfl⟩ := List.mem_map.1 hj
          exact (hsource i hi).imp fun _ h => h.1
        · obtain ⟨rows', hrows', hperm, -⟩ := hsource i hi
          rw [standIns_singleton, List.flatMap_singleton, hrows'.produced_eq,
            (hread i hi).produced_eq]
          exact hperm
      · have hinputs := h.inputs_eq hx hc fun hmem hcrowd => hstir (.moved hmem (.inr hcrowd))
        refine ⟨rows, .emits (fun j => G'.produced src limit j.source) hop'
          (h.forward'.inputs h.symmetric'.linked) (fun j hj => ?_) ?_, .refl _, fun _ => rfl⟩
        · rw [hinputs] at hj
          obtain ⟨i, hi, rfl⟩ := List.mem_map.1 hj
          obtain ⟨rows', hrows', -⟩ := hsource i hi
          exact hrows'.produced_eq.symm ▸ hrows'
        · rw [deliver_of_inputs (operand_standIn id c) hinputs, ← hemit]
          refine congrArg _ (deliver_congr fun i hi => ?_)
          obtain ⟨rows', hrows', -, hsame⟩ := hsource i hi
          rw [hrows'.produced_eq, hsame hstir]

/-- What is read comes before what reads it. -/
theorem exists_rank (h : G.ForwardSplit G' id op) {order : List OperatorId}
    (horder : G.IsTopological order) :
    ∃ rank : OperatorId → Nat,
      ∀ {x : OperatorId} {i : Input}, G.Reads x i → rank i.source < rank x := by
  obtain ⟨rank, hrank⟩ := h.forward.exists_rank h.linked horder
  exact ⟨rank, fun hi => hrank _ _ (h.linked.mem_inputs.2 hi)⟩

/-- Copies come where the operator comes. -/
theorem topologicalOrder (h : G.ForwardSplit G' id op) {order : List OperatorId}
    (horder : G.IsTopological order) : ∃ order', G'.topologicalOrder = .ok order' := by
  obtain ⟨rank, hrank⟩ := h.exists_rank horder
  have hcopy {c t : OperatorId} (hc : CopyOf G.slots.length (G.laterConsumers id) c t) :
      ¬ (c : Nat) < G.slots.length := fun hlt => not_copyOf_of_lt hlt hc
  suffices ∀ x, ∀ y ∈ G'.forward x, (if x < G.slots.length then rank x else rank id) <
      if y < G.slots.length then rank y else rank id from topologicalOrder_of_rank this
  intro x y hy
  obtain ⟨-, e, he, rfl, -⟩ := mem_forward.1 hy
  rcases (h.wired.reads e.target ⟨x, e.operand, e.feedback⟩).1 he with
    ⟨hi, -⟩ | ⟨t, hc, hi⟩ | ⟨hc, hi⟩
  · obtain ⟨hy, hx⟩ := h.lt_of_reads hi
    rw [if_pos hx, if_pos hy]
    exact hrank hi
  · rw [if_pos (h.lt_of_reads hi).2, if_neg (hcopy hc)]
    exact hrank hi
  · rw [if_neg (hcopy hc), if_pos (h.lt_of_reads hi).1]
    exact hrank hi

/-- No order has changed before the operator. -/
theorem steady (h : G.ForwardSplit G' id op) {order : List OperatorId}
    (horder : G.IsTopological order) : G.Steady id id := by
  obtain ⟨rank, hrank⟩ := h.exists_rank horder
  have hlate (x : OperatorId) (hx : G.Stirred id x) : rank id < rank x := by
    induction hx with
    | moved hx _ =>
        obtain ⟨k, f, hread⟩ := exists_reads_of_mem_laterConsumers hx
        exact hrank hread
    | reads hi _ ih => exact ih.trans (hrank hi)
  have hearly (y : OperatorId) (hy : Relation.ReflTransGen G.Leads y id) : rank y ≤ rank id := by
    induction hy using Relation.ReflTransGen.head_induction_on with
    | refl => exact le_rfl
    | head hxy _ ih =>
        obtain ⟨i, hi, rfl⟩ := (leads_iff h.linked).1 hxy
        exact (hrank hi).le.trans ih
  exact fun y op' hy _ hstir => absurd (hlate y hstir) (Nat.not_lt.2 (hearly y hy))

/-- The operator and its copies have the rows that the operator had. -/
theorem produces_heads (h : G.ForwardSplit G' id op) {order : List OperatorId}
    (horder : G.IsTopological order) (hrows : G.Produces src limit id rows) (hc : c ∈ G.heads id) :
    ∃ rows', G'.Produces src limit c rows' ∧ rows.Perm rows' := by
  obtain ⟨rows', hid, hperm, -⟩ := h.produces hrows (h.steady horder)
  rcases mem_heads.1 hc with rfl | ⟨t, hcopy⟩
  · exact ⟨rows', hid, hperm⟩
  · obtain ⟨rows'', hcopy, hperm', -⟩ := h.produces_copy hid hcopy
    exact ⟨rows'', hcopy, hperm.trans hperm'⟩

/-- Evaluations of a graph before and after a split. -/
theorem finalRows (h : G.ForwardSplit G' id op) {a : Assignment} {n : Nat}
    (ha : (Plan.opened ⟨G⟩ src limit).finalRows src limit = .ok (a, n)) :
    ((∀ x ∈ G.ids, G.Steady id x) →
      ∃ a' n', (Plan.opened ⟨G'⟩ src limit).finalRows src limit = .ok (a', n')) ∧
    ∀ a' n', (Plan.opened ⟨G'⟩ src limit).finalRows src limit = .ok (a', n') →
      (∀ c ∈ G.heads id, (a'.rows c).Perm (a.rows id)) ∧
      ∀ x ∈ G.ids, (G.Steady id x → (a'.rows x).Perm (a.rows x)) ∧
        (¬ G.Stirred id x → a'.rows x = a.rows x) := by
  obtain ⟨⟨order, horder⟩, hlimit⟩ := exists_order_of_finalRows ha
  have horder := topologicalOrder_spec horder
  have hbefore (x : OperatorId) (hx : x ∈ G.ids) : G.Produces src limit x (a.rows x) :=
    produces_of_finalRows h.linked h.forward ha hx
  have hheads (c : OperatorId) (hc : c ∈ G.heads id) :=
    h.produces_heads horder (hbefore id (mem_ids_of_operator? h.operator)) hc
  refine ⟨fun hsteady => ?_, fun a' n' ha' => ?_⟩
  · obtain ⟨order', horder'⟩ := h.topologicalOrder horder
    refine exists_finalRows h.wired.linked h.forward' horder' hlimit fun x hx => ?_
    by_cases hhead : x ∈ G.heads id
    · exact (hheads x hhead).imp fun _ h => h.1
    · obtain ⟨op', hop'⟩ := exists_operator?_of_mem_ids hx
      rw [h.operator?_eq_ite, if_neg hhead] at hop'
      have hold := mem_ids_of_operator? hop'
      exact (h.produces (hbefore x hold) (hsteady x hold)).imp fun _ h => h.1
  · have hafter {x : OperatorId} {rows : List Row} (hx : G'.Produces src limit x rows) :
        a'.rows x = rows :=
      (produces_of_finalRows h.wired.linked h.forward' ha' hx.mem_ids).unique hx
    refine ⟨fun c hc => ?_, fun x hx => ⟨fun hsteady => ?_, fun hcalm => ?_⟩⟩
    · obtain ⟨rows, hrows, hperm⟩ := hheads c hc
      rw [hafter hrows]
      exact hperm.symm
    · obtain ⟨rows, hrows, hperm, -⟩ := h.produces (hbefore x hx) hsteady
      rw [hafter hrows]
      exact hperm.symm
    · obtain ⟨rows, hrows, -, hsame⟩ :=
        h.produces (hbefore x hx) (steady_of_not_stirred h.linked hcalm)
      rw [hafter hrows]
      exact hsame hcalm

end ForwardSplit

end Graph

namespace PlanRule

/-- The rules that split operators are about operators that do not depend on the order of rows. -/
theorem exists_split_eq {rule : PlanRule Plan}
    (hrule : rule ∈ [splitTripleHead, splitAtomMatcher, splitAtomHead]) :
    ∃ name kind, rule = split name kind ∧
      ∀ op : Operator Plan, op.kind = kind → op.IgnoresOrder := by
  simp only [List.mem_cons, List.not_mem_nil, or_false] at hrule
  rcases hrule with rfl | rfl | rfl
  all_goals
    refine ⟨_, _, rfl, fun op hop => ?_⟩
    cases op <;> first | exact trivial | cases hop

/-- Where an operator is split, it and its copies read what it read and feed one consumer each,
every consumer reads one of them as it read the operator, nothing else changes, and none of them is
split again. In a graph without feedback edges, in which no edge is recorded twice, all operators
then have the same rows as before, as bags, up to where one depends on an order of rows that may
have changed; if none does, the evaluation still succeeds. -/
theorem split_same_rows {w : Workspace Plan} (h : w.graph.Linked) {rule : PlanRule Plan}
    (hrule : rule ∈ [splitTripleHead, splitAtomMatcher, splitAtomHead]) {id : OperatorId}
    (hself : ∀ i, w.graph.Reads id i → i.source ≠ id) {m : Match}
    (hm : rule.match? w.graph id = some m) :
    (rule.replace m).Runs w fun _ w' =>
      w.graph.Divided w'.graph id ∧ (∀ c ∈ w.graph.heads id, rule.match? w'.graph c = none) ∧
      (w.graph.Symmetric → w.graph.Forward → ∀ src limit a n,
        (Plan.opened ⟨w.graph⟩ src limit).finalRows src limit = .ok (a, n) →
        ((∀ x ∈ w.graph.ids, w.graph.Steady id x) →
          ∃ a' n', (Plan.opened ⟨w'.graph⟩ src limit).finalRows src limit = .ok (a', n')) ∧
        ∀ a' n', (Plan.opened ⟨w'.graph⟩ src limit).finalRows src limit = .ok (a', n') →
          (∀ c ∈ w.graph.heads id, (a'.rows c).Perm (a.rows id)) ∧
          ∀ x ∈ w.graph.ids, (w.graph.Steady id x → (a'.rows x).Perm (a.rows x)) ∧
            (¬ w.graph.Stirred id x → a'.rows x = a.rows x)) := by
  obtain ⟨name, kind, rfl, hkind⟩ := exists_split_eq hrule
  obtain ⟨hid, hlater, rfl⟩ := exists_of_split_match hm
  obtain ⟨op, hop, rfl⟩ := Option.map_eq_some_iff.1 hid
  obtain ⟨⟨⟩, w', hrun, hwired⟩ := split_runs name op.kind h hop
  have hsplit : w.graph.Split w'.graph id op := ⟨h, hself, hop, hwired⟩
  have hdivided := hsplit.divided hlater
  refine ⟨⟨⟩, w', hrun, hdivided, fun c hc => ?_, fun hsym hforward src limit a n ha => ?_⟩
  · obtain ⟨t, -, ht⟩ := hdivided.feeds c hc
    exact split_match_eq_none name op.kind fun e he => ((ht _ _ _).1 he).1
  · exact Graph.ForwardSplit.finalRows
      { hsplit with
        symmetric := hsym
        symmetric' := split_keeps Workspace.keptBySteps_symmetric name op.kind _ w hsym _ _ hrun
        forward := hforward
        ignoresOrder := hkind op rfl
        spared := fun x hx hnew => (split_spares name op.kind hx hnew _ _ hrun).inputs } ha

/-- Two rules, one of whose heads is read twice: once alone, and once along with the other head. -/
def sharedHead (later : Operator Plan) : Graph Plan :=
  Graph.edited [.add (.generate ⟨.term (.iri "a"), .term (.iri "p"), .term (.iri "b")⟩),
    .add (.generate ⟨.term (.iri "c"), .term (.iri "p"), .term (.iri "d")⟩), .add .distinct,
    .add later, .add (.limit 1), .connect 0 1 0 false, .connect 0 2 0 false, .connect 1 3 0 false,
    .connect 1 4 0 false, .connect 2 4 0 false, .connect 3 5 0 false]

/-- Duplicates may be removed from rows in any order, and the other consumer may be cut off, since
its rows come in the order in which they came. -/
theorem split_same_rows_sharedHead :
    (splitTripleHead.replace ((Match.only 1).bindAll .moved [4])).Runs
      (.ofGraph (sharedHead .distinct)) fun _ w' => ∀ src limit a n,
        (Plan.opened ⟨sharedHead .distinct⟩ src limit).finalRows src limit = .ok (a, n) →
        ∃ a' n', (Plan.opened ⟨w'.graph⟩ src limit).finalRows src limit = .ok (a', n') ∧
          ∀ x ∈ (sharedHead .distinct).ids, (a'.rows x).Perm (a.rows x) := by
  have hstirred (y : OperatorId) (hy : (sharedHead .distinct).Stirred 1 y) : y = 4 := by
    induction hy with
    | @moved y hy _ =>
        have hlater : (sharedHead .distinct).laterConsumers 1 = [4] := by decide +kernel
        rwa [hlater, List.mem_singleton] at hy
    | @reads y i hi _ ih =>
        have hunread : (sharedHead .distinct).succeeding 4 = [] := by decide +kernel
        rw [Graph.Reads, ih, hunread] at hi
        cases hi
  have hsteady (x : OperatorId) : (sharedHead .distinct).Steady 1 x := by
    intro y op _ hop hy
    obtain rfl := hstirred y hy
    have hdistinct : (sharedHead .distinct).operator? 4 = some .distinct := rfl
    obtain rfl := Option.some.inj (hdistinct.symm.trans hop)
    trivial
  have hself : ∀ i ∈ (sharedHead .distinct).inputs 1, i.source ≠ 1 := by decide +kernel
  have hrule : splitTripleHead ∈ [splitTripleHead (γ := Plan), splitAtomMatcher, splitAtomHead] :=
    List.mem_cons_self
  have hm : splitTripleHead.match? (sharedHead .distinct) 1 =
      some ((Match.only 1).bindAll .moved [4]) := by decide +kernel
  refine (split_same_rows (w := .ofGraph (sharedHead .distinct)) (Graph.symmetric_edited _).linked
    hrule (fun i hi => hself i ((Graph.symmetric_edited _).linked.mem_inputs.2 hi)) hm).mono
      fun _ w' h src limit a n ha => ?_
  obtain ⟨-, -, hrows⟩ := h
  obtain ⟨hexists, hsame⟩ := hrows (Graph.symmetric_edited _)
    (Graph.forward_iff.2 (by decide +kernel))
    src limit a n ha
  obtain ⟨a', n', ha'⟩ := hexists fun x _ => hsteady x
  exact ⟨a', n', ha', fun x hx => ((hsame a' n' ha').2 x hx).1 (hsteady x)⟩

/-- The edge from the copy is the last one of its consumer, which therefore keeps the other row. -/
theorem split_cuts_other_row :
    splitTripleHead.match? (sharedHead (.limit 1)) 1 = some ((Match.only 1).bindAll .moved [4]) ∧
    (sharedHead (.limit 1)).Forward ∧ (∀ i, (sharedHead (.limit 1)).Reads 1 i → i.source ≠ 1) ∧
    (splitTripleHead.replace ((Match.only 1).bindAll .moved [4])).Runs
      (.ofGraph (sharedHead (.limit 1))) fun _ w' => ∃ a a' n,
        (Plan.opened ⟨sharedHead (.limit 1)⟩ ⟨.empty, .empty⟩ 1).finalRows ⟨.empty, .empty⟩ 1 =
          .ok (a, n) ∧
        (Plan.opened ⟨w'.graph⟩ ⟨.empty, .empty⟩ 1).finalRows ⟨.empty, .empty⟩ 1 = .ok (a', n) ∧
        ¬ (a'.rows 4).Perm (a.rows 4) := by
  have hself : ∀ i ∈ (sharedHead (.limit 1)).inputs 1, i.source ≠ 1 := by decide +kernel
  exact ⟨by decide +kernel, Graph.forward_iff.2 (by decide +kernel),
    fun i hi => hself i ((Graph.symmetric_edited _).linked.mem_inputs.2 hi),
    ⟨⟩, _, rfl, _, _, _, rfl, rfl, by decide +kernel⟩

end PlanRule

end QuadAlgebra
