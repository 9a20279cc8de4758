import QuadAlgebra.Planning.Draft
import QuadAlgebra.Proofs.Plan.Wiring

/-!
# Drafts that grow

Planning never takes anything back: it adds operators and edges. A draft extends another one when
the operators of the first are still there, when all but a few of them read what they read before,
and when whatever is new is fed by the root or by what is new (`Draft.Extends`). Extensions can be
chained (`Draft.Extends.trans`), and each step of a drawing is one.
-/

namespace QuadAlgebra

/-! ## Running edits -/

namespace Edit

variable {σ τ α β : Type}

@[simp] theorem runOn_pure (a : α) (s : σ) : (pure a : Edit σ α).runOn s = (.ok a, s) := rfl

@[simp] theorem runOn_throw (e : Error) (s : σ) :
    (throw e : Edit σ α).runOn s = (.error e, s) := rfl

@[simp] theorem runOn_get (s : σ) : (get : Edit σ σ).runOn s = (.ok s, s) := rfl

@[simp] theorem runOn_set (s t : σ) : (set t : Edit σ PUnit).runOn s = (.ok ⟨⟩, t) := rfl

@[simp] theorem runOn_modify (f : σ → σ) (s : σ) :
    (modify f : Edit σ PUnit).runOn s = (.ok ⟨⟩, f s) := rfl

/-- An edit in two steps stops after the first if that fails. -/
theorem runOn_bind (x : Edit σ α) (f : α → Edit σ β) (s : σ) :
    (x >>= f).runOn s =
      match x.runOn s with
      | (.ok a, s') => (f a).runOn s'
      | (.error e, s') => (.error e, s') := by
  simp only [runOn, ExceptT.run, StateT.run, Id.run, bind, ExceptT.bind, ExceptT.mk, StateT.bind]
  rcases x s with ⟨_ | a, s'⟩ <;> rfl

/-- An edit in two steps succeeds if both steps do. -/
theorem runOn_bind_eq_ok {x : Edit σ α} {f : α → Edit σ β} {s s'' : σ} {b : β} :
    (x >>= f).runOn s = (.ok b, s'') ↔
      ∃ a s', x.runOn s = (.ok a, s') ∧ (f a).runOn s' = (.ok b, s'') := by
  rw [runOn_bind]
  rcases x.runOn s with ⟨_ | a, s'⟩
  · simp
  · constructor
    · exact fun h => ⟨a, s', rfl, h⟩
    · rintro ⟨a', t, he, h⟩
      obtain ⟨ha, ht⟩ := Prod.mk.inj he
      obtain rfl := Except.ok.inj ha
      rw [ht]
      exact h

/-- An edit of a part of the state leaves the rest as it is. -/
theorem runOn_within (get : τ → σ) (set : σ → τ → τ) (edit : Edit σ α) (t : τ) :
    (within get set edit).runOn t = ((edit.runOn (get t)).1, set (edit.runOn (get t)).2 t) := rfl

end Edit

namespace Draft

/-- The number of operators in a draft, which is also the number of the next one. -/
def size (d : Draft) : Nat := d.graph.slots.length

/-- Nothing has been drawn yet, but the numbers go on: a plan of its own is drawn on this. -/
abbrev cleared (d : Draft) : Draft := { d with graph := .empty, wiring := .none }

/-- A new operator that nothing reads yet. -/
def withOperator (d : Draft) (op : Operator Plan) : Draft :=
  { d with graph := d.graph.withOperator op }

/-- A new edge. -/
def withEdge (d : Draft) (source : OperatorId) (e : Edge) : Draft :=
  { d with graph := d.graph.withEdge source e }

end Draft

/-! ## Running single steps -/

namespace Draw

/-- An operator is added under the next number. -/
theorem add_runOn (op : Operator Plan) (d : Draft) :
    (add op).runOn d = (.ok d.size, d.withOperator op) := rfl

/-- A fresh variable is taken from the counter. -/
theorem freshVar_runOn (d : Draft) :
    freshVar.runOn d = (.ok (.interim d.nextVar), { d with nextVar := d.nextVar + 1 }) := rfl

theorem connect_runOn (s t : OperatorId) (k : Nat) (feedback : Bool) (g : Graph Plan) :
    (Graph.connect s t k feedback).runOn g =
      if g.contains t then
        match g.node? s with
        | some n =>
          if n.succeeding.contains ⟨t, k, feedback⟩ then (.ok (), g)
          else (.ok (), g.withEdge s ⟨t, k, feedback⟩)
        | none => (.error (.internal (.unknownOperator s)), g)
      else (.error (.internal (.removedTarget s t)), g) := by
  unfold Graph.connect Graph.require Graph.withEdge
  by_cases ht : g.contains t
  · cases hn : g.node? s with
    | none => simp [Edit.runOn_bind, Edit.fault, ht, hn]
    | some n => by_cases he : ⟨t, k, feedback⟩ ∈ n.succeeding <;>
        simp [Edit.runOn_bind, ht, hn, he]
  · simp [Edit.runOn_bind, Edit.fault, ht]

/-- A connection on a new operand that succeeds adds an edge between operators of the graph. -/
theorem connect_eq_ok {s t : OperatorId} {k : Nat} {feedback : Bool} {d d' : Draft}
    (htidy : d.graph.Tidy) (hnew : ∀ i ∈ d.graph.inputs t, i.operand < k)
    (h : (onGraph (Graph.connect s t k feedback)).runOn d = (.ok (), d')) :
    d.graph.contains s = true ∧ d.graph.contains t = true ∧
      d' = d.withEdge s ⟨t, k, feedback⟩ := by
  rw [onGraph, Edit.runOn_within, connect_runOn] at h
  by_cases ht : d.graph.contains t
  · rw [if_pos ht] at h
    cases hn : d.graph.node? s with
    | none => simp [hn] at h
    | some n =>
        have hsucc : d.graph.succeeding s = n.succeeding := by
          simp [Graph.succeeding, hn]
        have hnot : ¬ n.succeeding.contains ⟨t, k, feedback⟩ = true := fun hc =>
          Graph.not_mem_succeeding (e := ⟨t, k, feedback⟩) htidy hnew
            (hsucc ▸ List.contains_iff_mem.1 hc)
        simp only [hn, if_neg hnot, Prod.mk.injEq, true_and] at h
        refine ⟨by simp [Graph.contains, hn], ht, h.symm⟩
  · simp [ht] at h

end Draw

/-! ## Extensions -/

/-- An operator with its inputs. -/
def Graph.Has (g : Graph Plan) (id : OperatorId) (op : Operator Plan) (inputs : List Input) :
    Prop :=
  g.operator? id = some op ∧ g.inputs id = inputs

namespace Draft

/-- What holds of every draft: it is tidy, and its root is fed by nobody. -/
structure Sound (d : Draft) : Prop where
  tidy : d.graph.Tidy
  root : d.graph.operator? Graph.root = some .root
  inputs_root : d.graph.inputs Graph.root = []

/-- A draft that keeps all operators of another one and what they read, apart from some touched
operators, which may read more. -/
structure Keeps (base d : Draft) (touched : OperatorId → Prop) : Prop where
  size_le : base.size ≤ d.size
  operator?_eq : ∀ id < base.size, d.graph.operator? id = base.graph.operator? id
  inputs_eq : ∀ id < base.size, ¬ touched id → d.graph.inputs id = base.graph.inputs id

/-- A sound draft that keeps all operators of another one. New edges come from the root or from new
operators. -/
structure Extends (base d : Draft) (touched : OperatorId → Prop) : Prop
    extends Keeps base d touched where
  sound : d.Sound
  nextVar_le : base.nextVar ≤ d.nextVar
  sources : ∀ id, ∀ i ∈ d.graph.inputs id,
    i ∈ base.graph.inputs id ∨ i.source = Graph.root ∨ base.size ≤ i.source

variable {base d d' : Draft} {touched touched' : OperatorId → Prop} {op : Operator Plan}
  {s : OperatorId}

/-- More operators may be touched. -/
theorem Keeps.mono (h : Keeps base d touched) (hsub : ∀ id, touched id → touched' id) :
    Keeps base d touched' :=
  ⟨h.size_le, h.operator?_eq, fun id hid hnot => h.inputs_eq id hid fun ht => hnot (hsub id ht)⟩

/-- Only the graph matters. -/
theorem Keeps.of_graph_eq (h : Keeps base d touched) (hgraph : d'.graph = d.graph) :
    Keeps base d' touched := by
  have hsize : d'.size = d.size := by rw [size, size, hgraph]
  exact ⟨hsize ▸ h.size_le, hgraph ▸ h.operator?_eq, hgraph ▸ h.inputs_eq⟩

/-- An operator that is not touched has the inputs that it had. -/
theorem Keeps.has (h : Keeps base d touched) {id : Nat} {inputs : List Input}
    (hhas : base.graph.Has id op inputs) (hid : id < base.size) (hnot : ¬ touched id) :
    d.graph.Has id op inputs :=
  ⟨(h.operator?_eq id hid).trans hhas.1, (h.inputs_eq id hid hnot).trans hhas.2⟩

/-- What is kept twice is kept. -/
theorem Keeps.trans (h : Keeps base d touched) (h' : Keeps d d' touched')
    (htouched : ∀ id < base.size, touched' id → touched id) : Keeps base d' touched where
  size_le := Nat.le_trans h.size_le h'.size_le
  operator?_eq id hid :=
    (h'.operator?_eq id (Nat.lt_of_lt_of_le hid h.size_le)).trans (h.operator?_eq id hid)
  inputs_eq id hid hnot :=
    (h'.inputs_eq id (Nat.lt_of_lt_of_le hid h.size_le) fun ht => hnot (htouched id hid ht)).trans
      (h.inputs_eq id hid hnot)

/-- The new operator stands under the next number. -/
theorem operator?_withOperator (x : OperatorId) :
    (d.withOperator op).graph.operator? x =
      if x = d.size then some op else d.graph.operator? x := Graph.operator?_withOperator x

theorem inputs_withOperator (x : OperatorId) :
    (d.withOperator op).graph.inputs x = d.graph.inputs x := Graph.inputs_withOperator x

theorem operator?_withEdge {e : Edge} (x : OperatorId) :
    (d.withEdge s e).graph.operator? x = d.graph.operator? x := Graph.operator?_withEdge x

/-- A new edge is the last input of its target if its operand is the highest. -/
theorem inputs_withEdge {t : OperatorId} {k : Nat} {f : Bool} (h : d.graph.Tidy)
    (hs : d.graph.contains s = true) (ht : d.graph.contains t = true)
    (hnew : ∀ i ∈ d.graph.inputs t, i.operand < k) (x : OperatorId) :
    (d.withEdge s ⟨t, k, f⟩).graph.inputs x =
      if x = t then d.graph.inputs x ++ [⟨s, k, f⟩] else d.graph.inputs x :=
  Graph.inputs_withEdge (e := ⟨t, k, f⟩) h hs ht hnew x

/-- Operators that are not there read nothing. -/
theorem Sound.inputs_eq_nil (h : d.Sound) {x : OperatorId} (hx : d.size ≤ x) :
    d.graph.inputs x = [] := Graph.inputs_of_length_le h.tidy hx

@[simp] theorem size_withOperator : (d.withOperator op).size = d.size + 1 :=
  Graph.length_withOperator op

@[simp] theorem size_withEdge {e : Edge} : (d.withEdge s e).size = d.size := Graph.length_withEdge

theorem Sound.size_pos (h : d.Sound) : 0 < d.size :=
  h.tidy.mem_ids.1 (Graph.mem_ids_of_operator? h.root)

/-- A new operator keeps a draft sound. -/
theorem Sound.withOperator (h : d.Sound) : (d.withOperator op).Sound where
  tidy := h.tidy.withOperator
  root := by
    have hne : Graph.root ≠ d.size := Nat.ne_of_lt h.size_pos
    rw [operator?_withOperator, if_neg hne, h.root]
  inputs_root := by rw [inputs_withOperator, h.inputs_root]

/-- A new edge between operators keeps a draft sound if it does not lead to the root. -/
theorem Sound.withEdge {t : OperatorId} {k : Nat} {f : Bool} (h : d.Sound)
    (hs : d.graph.contains s = true) (ht : d.graph.contains t = true)
    (hnew : ∀ i ∈ d.graph.inputs t, i.operand < k) (hroot : t ≠ Graph.root) :
    (d.withEdge s ⟨t, k, f⟩).Sound where
  tidy := Graph.Tidy.withEdge (e := ⟨t, k, f⟩) h.tidy hs ht hnew
  root := by rw [operator?_withEdge, h.root]
  inputs_root := by rw [inputs_withEdge h.tidy hs ht hnew, if_neg (Ne.symm hroot), h.inputs_root]

theorem Extends.refl (h : d.Sound) : Extends d d touched :=
  ⟨⟨Nat.le_refl _, fun _ _ => rfl, fun _ _ _ => rfl⟩, h, Nat.le_refl _, fun _ _ hi => Or.inl hi⟩

/-- More operators may be touched by an extension. -/
theorem Extends.mono (h : Extends base d touched) (hsub : ∀ id, touched id → touched' id) :
    Extends base d touched' := ⟨h.toKeeps.mono hsub, h.sound, h.nextVar_le, h.sources⟩

/-- A draft extends what the draft before it extends. -/
theorem Extends.trans (h : Extends base d touched) (h' : Extends d d' touched')
    (htouched : ∀ id < base.size, touched' id → touched id) : Extends base d' touched where
  sound := h'.sound
  nextVar_le := Nat.le_trans h.nextVar_le h'.nextVar_le
  toKeeps := h.toKeeps.trans h'.toKeeps htouched
  sources id i hi := by
    rcases h'.sources id i hi with hi | hi | hi
    · exact h.sources id i hi
    · exact Or.inr (Or.inl hi)
    · exact Or.inr (Or.inr (Nat.le_trans h.size_le hi))

/-- An extension may go on with a new operator. -/
theorem Extends.withOperator (h : Extends base d touched) :
    Extends base (d.withOperator op) touched where
  sound := h.sound.withOperator
  size_le := by
    rw [size_withOperator]
    exact Nat.le_succ_of_le h.size_le
  nextVar_le := h.nextVar_le
  operator?_eq id hid := by
    have hne : id ≠ d.size := Nat.ne_of_lt (Nat.lt_of_lt_of_le hid h.size_le)
    rw [operator?_withOperator, if_neg hne, h.operator?_eq id hid]
  inputs_eq id hid hnot := by rw [inputs_withOperator, h.inputs_eq id hid hnot]
  sources id i hi := h.sources id i (by rwa [inputs_withOperator] at hi)

/-- A new edge keeps an extension if it leads from something new to something new or touched. -/
theorem Extends.withEdge {t : OperatorId} {k : Nat} {f : Bool} (h : Extends base d touched)
    (hs : d.graph.contains s = true) (ht : d.graph.contains t = true)
    (hnew : ∀ i ∈ d.graph.inputs t, i.operand < k) (htarget : base.size ≤ t ∨ touched t)
    (hroot : t ≠ Graph.root) (hsource : s = Graph.root ∨ base.size ≤ s) :
    Extends base (d.withEdge s ⟨t, k, f⟩) touched where
  sound := h.sound.withEdge hs ht hnew hroot
  size_le := by
    rw [size_withEdge]
    exact h.size_le
  nextVar_le := h.nextVar_le
  operator?_eq id hid := by rw [operator?_withEdge, h.operator?_eq id hid]
  inputs_eq id hid hnot := by
    have hne : id ≠ t := fun he => by
      rcases htarget with ht | ht
      · exact absurd (he ▸ hid) (Nat.not_lt.2 ht)
      · exact hnot (he ▸ ht)
    rw [inputs_withEdge h.sound.tidy hs ht hnew, if_neg hne, h.inputs_eq id hid hnot]
  sources id i hi := by
    rw [inputs_withEdge h.sound.tidy hs ht hnew] at hi
    split at hi
    · rcases List.mem_append.1 hi with hi | hi
      · exact h.sources id i hi
      · obtain rfl := List.mem_singleton.1 hi
        exact Or.inr hsource
    · exact h.sources id i hi

/-- Numbers may be handed out and operators remembered without changing the graph. -/
theorem Extends.of_graph_eq (h : Extends base d touched) (hgraph : d'.graph = d.graph)
    (hvar : d.nextVar ≤ d'.nextVar) : Extends base d' touched where
  toKeeps := h.toKeeps.of_graph_eq hgraph
  sound := ⟨hgraph ▸ h.sound.tidy, hgraph ▸ h.sound.root, hgraph ▸ h.sound.inputs_root⟩
  nextVar_le := Nat.le_trans h.nextVar_le hvar
  sources id i hi := h.sources id i (hgraph ▸ hi)

/-- Numbers may be handed out before a draft is extended. -/
theorem Extends.after_numbers (h : Extends d d' touched) (hgraph : d.graph = base.graph)
    (hvar : base.nextVar ≤ d.nextVar) : Extends base d' touched := by
  have hsize : d.size = base.size := by rw [size, size, hgraph]
  exact ⟨⟨hsize ▸ h.size_le, hgraph ▸ hsize ▸ h.operator?_eq, hgraph ▸ hsize ▸ h.inputs_eq⟩,
    h.sound, Nat.le_trans hvar h.nextVar_le, hgraph ▸ hsize ▸ h.sources⟩

/-- What is unread stays unread while a draft grows elsewhere. -/
theorem Extends.unread (h : Extends base d touched) {id : OperatorId} (hid : id < base.size)
    (hroot : id ≠ Graph.root) (hunread : base.graph.Unread id) : d.graph.Unread id := by
  intro t i hi hsource
  rcases h.sources t i hi with hi | hi | hi
  · exact hunread t i hi hsource
  · exact hroot (hsource ▸ hi)
  · exact absurd (hsource ▸ hi) (Nat.not_le.2 hid)

end Draft

/-! ## New inputs -/

/-- A draft in which an operator reads more. -/
structure Draft.FedBy (d d' : Draft) (target : OperatorId) (new : List Input) : Prop where
  sound : d.Sound → d'.Sound
  size : d'.size = d.size
  nextVar : d'.nextVar = d.nextVar
  operator? : ∀ id, d'.graph.operator? id = d.graph.operator? id
  inputs : ∀ id, d'.graph.inputs id =
    if id = target then d.graph.inputs id ++ new else d.graph.inputs id
  ranked : (d.graph.Unread target ∧ ∀ i ∈ new, i.source ≠ target) ∨
    (∀ i ∈ new, i.feedback = true) → d.graph.Ranked → d'.graph.Ranked
  extension : ∀ {base : Draft} {touched : OperatorId → Prop}, base.Extends d touched →
    base.size ≤ target ∨ touched target →
      (∀ i ∈ new, i.source = Graph.root ∨ base.size ≤ i.source) → base.Extends d' touched

namespace Draft.FedBy

variable {d d₁ d' : Draft} {target s : OperatorId} {k : Nat} {f : Bool} {new new' : List Input}
  {op : Operator Plan}

theorem refl : FedBy d d target [] :=
  ⟨id, rfl, rfl, fun _ => rfl, fun id => by simp, fun _ h => h, fun h _ _ => h⟩

/-- What is added to the inputs of an operator that nobody reads leaves it unread. -/
theorem unread (h : d.FedBy d' target new) (hunread : d.graph.Unread target)
    (hnew : ∀ i ∈ new, i.source ≠ target) : d'.graph.Unread target := by
  intro t i hi
  rw [h.inputs] at hi
  split at hi
  · rcases List.mem_append.1 hi with hi | hi
    · exact hunread t i hi
    · exact hnew i hi
  · exact hunread t i hi

/-- Nothing but the target is touched. -/
theorem keeps (h : d.FedBy d' target new) : d.Keeps d' (· = target) :=
  ⟨Nat.le_of_eq h.size.symm, fun id _ => h.operator? id, fun id _ hne => by
    rw [h.inputs, if_neg hne]⟩

/-- The target has got its new inputs after those that it had. -/
theorem has (h : d.FedBy d' target new) {inputs : List Input}
    (hhas : d.graph.Has target op inputs) : d'.graph.Has target op (inputs ++ new) :=
  ⟨(h.operator? target).trans hhas.1, by rw [h.inputs, if_pos rfl, hhas.2]⟩

/-- A target may be fed twice. -/
theorem trans (h : d.FedBy d₁ target new) (h' : d₁.FedBy d' target new') :
    d.FedBy d' target (new ++ new') where
  sound hd := h'.sound (h.sound hd)
  size := h'.size.trans h.size
  nextVar := h'.nextVar.trans h.nextVar
  operator? id := (h'.operator? id).trans (h.operator? id)
  inputs id := by
    rw [h'.inputs, h.inputs]
    split <;> simp
  ranked hnew hr := by
    rcases hnew with ⟨hunread, hnew⟩ | hnew
    · have hfirst : ∀ i ∈ new, i.source ≠ target := fun i hi => hnew i (List.mem_append_left _ hi)
      exact h'.ranked (.inl ⟨h.unread hunread hfirst, fun i hi =>
        hnew i (List.mem_append_right _ hi)⟩) (h.ranked (.inl ⟨hunread, hfirst⟩) hr)
    · exact h'.ranked (.inr fun i hi => hnew i (List.mem_append_right _ hi))
        (h.ranked (.inr fun i hi => hnew i (List.mem_append_left _ hi)) hr)
  extension hbase htarget hnew :=
    h'.extension (h.extension hbase htarget fun i hi => hnew i (List.mem_append_left _ hi)) htarget
      fun i hi => hnew i (List.mem_append_right _ hi)

/-- A connection on a new operand. -/
theorem of_connect (hd : d.Sound) (hroot : target ≠ Graph.root)
    (hnew : ∀ i ∈ d.graph.inputs target, i.operand < k)
    (h : (Draw.onGraph (Graph.connect s target k f)).runOn d = (.ok (), d')) :
    d.FedBy d' target [⟨s, k, f⟩] := by
  obtain ⟨hs, ht, rfl⟩ := Draw.connect_eq_ok hd.tidy hnew h
  refine ⟨fun hd => hd.withEdge hs ht hnew hroot, Draft.size_withEdge, rfl,
    Draft.operator?_withEdge, fun id => ?_, fun hranks hr => ?_, fun hbase htarget hsources => ?_⟩
  · exact Draft.inputs_withEdge hd.tidy hs ht hnew id
  · refine Graph.Ranked.withEdge (e := ⟨target, k, f⟩) hd.tidy hs ht hnew hr ?_
    rcases hranks with ⟨hunread, hne⟩ | hback
    · exact .inr ⟨hne ⟨s, k, f⟩ List.mem_cons_self, hunread⟩
    · exact .inl (hback ⟨s, k, f⟩ List.mem_cons_self)
  · exact hbase.withEdge hs ht hnew htarget hroot (hsources _ List.mem_cons_self)

/-- A new operator with what it reads. Nothing else is fed. -/
theorem new_operator (hd : d.Sound) (h : (d.withOperator op).FedBy d' d.size new) :
    d.Keeps d' (fun _ => False) ∧ d'.graph.Has d.size op new := by
  have hsize : d'.size = d.size + 1 := by rw [h.size, size_withOperator]
  refine ⟨⟨hsize ▸ Nat.le_succ _, fun id hid => ?_, fun id hid _ => ?_⟩, ?_, ?_⟩
  · rw [h.operator?, operator?_withOperator, if_neg (Nat.ne_of_lt hid)]
  · rw [h.inputs, if_neg (Nat.ne_of_lt hid), inputs_withOperator]
  · rw [h.operator?, operator?_withOperator, if_pos rfl]
  · rw [h.inputs, if_pos rfl, inputs_withOperator, hd.inputs_eq_nil (Nat.le_refl _),
      List.nil_append]

/-- Connections on one operand after the other. -/
theorem of_forM {inputs : List OperatorId} {first : Nat} (hd : d.Sound)
    (hroot : target ≠ Graph.root) (hnew : ∀ i ∈ d.graph.inputs target, i.operand < first)
    (h : ((inputs.zipIdx first).forM fun p => Draw.connect p.1 target p.2).runOn d = (.ok (), d')) :
    d.FedBy d' target ((inputs.zipIdx first).map fun p => ⟨p.1, p.2, false⟩) := by
  induction inputs generalizing d first with
  | nil =>
      obtain ⟨-, rfl⟩ := Prod.mk.inj h
      exact refl
  | cons s rest ih =>
      rw [List.zipIdx_cons, List.forM_eq_forM, List.forM_cons, Edit.runOn_bind_eq_ok] at h
      obtain ⟨⟨⟩, d₁, hconnect, h⟩ := h
      have hfirst := of_connect hd hroot hnew hconnect
      refine trans hfirst (ih (hfirst.sound hd) (fun i hi => ?_) h)
      rw [hfirst.inputs, if_pos rfl] at hi
      rcases List.mem_append.1 hi with hi | hi
      · exact Nat.lt_succ_of_lt (hnew i hi)
      · rw [List.mem_singleton.1 hi]
        exact Nat.lt_succ_self first

end Draft.FedBy

/-! ## Final graphs -/

/-- A graph that has the operators of another one with numbers in a range, with the same edges
into them. -/
def Graph.Agrees (g G : Graph Plan) (first last : Nat) : Prop :=
  ∀ id, first ≤ id → id < last → G.operator? id = g.operator? id ∧ G.inputs id = g.inputs id

theorem Graph.Agrees.refl (g : Graph Plan) (first last : Nat) : g.Agrees g first last :=
  fun _ _ _ => ⟨rfl, rfl⟩

/-- Where two graphs agree, operators have the same inputs. -/
theorem Graph.Agrees.has {g G : Graph Plan} {first last id : OperatorId} {op : Operator Plan}
    {inputs : List Input} (h : g.Agrees G first last) (hhas : g.Has id op inputs) (hid : first ≤ id)
    (hid' : id < last) : G.Has id op inputs :=
  ⟨(h id hid hid').1.trans hhas.1, (h id hid hid').2.trans hhas.2⟩

/-- What agrees with a draft agrees with the drafts whose operators it keeps. -/
theorem Graph.Agrees.of_keeps {d d' : Draft} {touched : OperatorId → Prop} {G : Graph Plan}
    {first last : Nat} (h : d'.graph.Agrees G first last) (hkeeps : d.Keeps d' touched)
    {first' last' : Nat} (hfirst : first ≤ first') (hlast : last' ≤ last) (hsize : last' ≤ d.size)
    (htouched : ∀ id, first' ≤ id → id < last' → ¬ touched id) :
    d.graph.Agrees G first' last' := by
  intro id hid hid'
  obtain ⟨hop, hin⟩ := h id (Nat.le_trans hfirst hid) (Nat.lt_of_lt_of_le hid' hlast)
  have hlt := Nat.lt_of_lt_of_le hid' hsize
  exact ⟨hop.trans (hkeeps.operator?_eq id hlt),
    hin.trans (hkeeps.inputs_eq id hlt (htouched id hid hid'))⟩

end QuadAlgebra
