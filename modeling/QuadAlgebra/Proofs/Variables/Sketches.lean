import QuadAlgebra.Proofs.Planning.PathSteps
import QuadAlgebra.Proofs.Variables.Extending
import QuadAlgebra.Proofs.Variables.Rewriting

/-!
# Sketches

A sketch is a plan under construction whose graph is regular: operators whose domain is known by now
have a shape, the others may still be fed. `Sketches k draw post` says that a drawing leads from a
sketch to a sketch, and every step of a drawing has one lemma of this kind. Two preorders say what a
drawing leaves alone: `Sketch.Extends` holds of all drawings, and `Sketch.Beside` of those that
draw something new of their own, to be used afterwards.
-/

namespace QuadAlgebra

/-! ## Finished plans -/

/-- A fit plan whose variable sets have been computed, and those of the plans nested in it. -/
def Plan.Finished (rules : Bool) (p : Plan) : Prop :=
  p.Fit rules ∧ ∀ part : Plan, part.PartOf p → part.Current

/-- Heads and matchers are drawn for rules only, and what is nested is finished. -/
def Operator.Drawable (rules : Bool) (op : Operator Plan) : Prop :=
  (rules = false → op.kind ∉ Graph.ruleKinds) ∧ ∀ e ∈ op.nested, e.2.Finished false

/-- Ordinary operators can be drawn anywhere. -/
theorem Operator.drawable_of_isOrdinary {rules : Bool} {op : Operator Plan}
    (h : op.isOrdinary = true) : op.Drawable rules := by
  cases op with
  | filter f =>
      refine ⟨fun _ => show Kind.filter ∉ Graph.ruleKinds by decide, fun e he => ?_⟩
      have he : e ∈ f.nested := he
      rw [List.isEmpty_iff.1 h] at he
      cases he
  | _ => exact ⟨fun _ => by simpa [isOrdinary] using h, fun e he => absurd he List.not_mem_nil⟩

/-- What is wired in the end: heads, which are no unions, and matchers. -/
structure Wiring.Fits (w : Wiring) (g : Graph Plan) : Prop where
  heads : ∀ id ∈ w.generators ++ w.atomHeads, ∃ op, g.operator? id = some op ∧ op.kind ≠ .union
  matchers : ∀ id ∈ w.tripleMatchers ++ w.atomMatchers,
    ∃ op, g.operator? id = some op ∧ op.kind ∈ [.matchTriple, .matchAtom]

/-- The wiring goes on to fit while operators stay what they are. -/
theorem Wiring.Fits.mono {w : Wiring} {g g' : Graph Plan} (h : w.Fits g)
    (hops : ∀ x op, g.operator? x = some op → g'.operator? x = some op) : w.Fits g' where
  heads id hid := (h.heads id hid).imp fun _ hop => hop.imp_left (hops id _)
  matchers id hid := (h.matchers id hid).imp fun _ hop => hop.imp_left (hops id _)

/-! ## Sketches -/

/-- A draft with shapes that fit its graph. -/
structure Sketch (rules : Bool) where
  graph : Graph Plan
  wiring : Wiring
  shapes : Shapes
  regular : graph.Regular rules shapes
  unfed : ∀ i, ¬ graph.Reads Graph.root i
  dead : ∀ id, graph.operator? id = none → shapes id = none
  nested : ∀ id op, graph.operator? id = some op → ∀ e ∈ op.nested, e.2.Finished false
  wired : wiring.Fits graph

namespace Sketch

variable {rules : Bool} {k₀ k k' k'' : Sketch rules} {id s t x : OperatorId} {op : Operator Plan}
  {D E : VarSet} {inputs : Input → Prop} {n : Nat} {c : Cursor}

/-- The sketch is one of the draft. -/
structure Of (k : Sketch rules) (d : Draft) : Prop where
  graph : d.graph = k.graph
  wiring : d.wiring = k.wiring

/-- An operator with a known domain, which may be read. -/
structure Offers (k : Sketch rules) (id : OperatorId) (D : VarSet) : Prop where
  shape : k.shapes id = some D
  unlooped : k.graph.Unlooped id

/-- An operator may be fed by another one on an operand. -/
structure Accepts (k : Sketch rules) (s : OperatorId) (c : Cursor) : Prop where
  operator : ∃ op, k.graph.operator? c.target = some op ∧ op.kind ∉ [.scan, .probe] ∧
    (op.kind = .optional → c.operand ≤ 1) ∧
    (op.kind = .replaceVar → ∀ op', k.graph.operator? s = some op' →
      op'.kind ∈ Operator.deduplicating)
  shape : k.shapes c.target = none
  unlooped : k.graph.Unlooped s

/-- An operator may be fed on an operand. -/
structure Takes (k : Sketch rules) (c : Cursor) : Prop where
  operator : ∃ op, k.graph.operator? c.target = some op ∧ op.kind ∉ [.scan, .probe, .replaceVar] ∧
    (op.kind = .optional → c.operand ≤ 1)
  shape : k.shapes c.target = none

/-- Only operators have shapes. -/
theorem live_of_shape (h : k.shapes id ≠ none) : k.graph.operator? id ≠ none :=
  fun hnone => h (k.dead id hnone)

theorem live_root : k.graph.operator? Graph.root ≠ none := by simp [k.regular.root]

/-- An operator of another kind is not at the start of a loop. -/
theorem unlooped_of_ne (h : ∀ op, k.graph.operator? id = some op → op.kind ≠ .union) :
    k.graph.Unlooped id := fun _ hop _ => absurd rfl (h _ hop)

theorem unlooped_root : k.graph.Unlooped Graph.root :=
  unlooped_of_ne fun op hop => by
    obtain rfl := Option.some.inj (k.regular.root.symm.trans hop)
    exact Kind.noConfusion

/-- A cursor that takes rows accepts them from any producer that is not at the start of a loop. -/
theorem Takes.accepts (h : k.Takes c) (hs : k.graph.Unlooped s) : k.Accepts s c := by
  obtain ⟨op, hop, hkind, hoptional⟩ := h.operator
  simp only [List.mem_cons, List.not_mem_nil, or_false, not_or] at hkind
  exact ⟨⟨op, hop, by simp [hkind], hoptional, fun he => absurd he hkind.2.2⟩, h.shape, hs⟩

/-! ### What drawings leave alone -/

/-- Operators stay, with their shapes, and feedback edges lead to new operators only. -/
structure Extends (k k' : Sketch rules) : Prop where
  operators : ∀ x op, k.graph.operator? x = some op → k'.graph.operator? x = some op
  shapes : ∀ x, k.graph.operator? x ≠ none → k'.shapes x = k.shapes x
  reads : ∀ x i, k.graph.Reads x i → k'.graph.Reads x i
  feedback : ∀ x i, k.graph.operator? x ≠ none → k'.graph.Reads x i → i.feedback = true →
    k.graph.Reads x i

/-- Operators read what they have read before, and apart from the root new operators read new
operators only. -/
structure Beside (k k' : Sketch rules) : Prop where
  operators : ∀ x op, k.graph.operator? x = some op → k'.graph.operator? x = some op
  shapes : ∀ x, k.graph.operator? x ≠ none → k'.shapes x = k.shapes x
  inputs : ∀ x i, k.graph.operator? x ≠ none → (k'.graph.Reads x i ↔ k.graph.Reads x i)
  sources : ∀ x i, k.graph.operator? x = none → k'.graph.Reads x i →
    i.source = Graph.root ∨ k.graph.operator? i.source = none

/-- Nothing changes but an operator, which may be new and may get inputs and a shape. -/
structure Changes (k k' : Sketch rules) (id : OperatorId) : Prop where
  same : ∀ x, x ≠ id → k'.graph.operator? x = k.graph.operator? x
  same_shape : ∀ x, x ≠ id → k'.shapes x = k.shapes x
  same_reads : ∀ x i, x ≠ id → (k'.graph.Reads x i ↔ k.graph.Reads x i)
  kept : ∀ op, k.graph.operator? id = some op → k'.graph.operator? id = some op
  kept_reads : ∀ i, k.graph.Reads id i → k'.graph.Reads id i

/-- Nothing changes but that there is one more operator, with these inputs and this shape. -/
structure Adds (k k' : Sketch rules) (id : OperatorId) (op : Operator Plan) (inputs : Input → Prop)
    (shape : Option VarSet) : Prop extends Changes k k' id where
  fresh : k.graph.operator? id = none
  operator : k'.graph.operator? id = some op
  inputs : ∀ i, k'.graph.Reads id i ↔ inputs i
  shape : k'.shapes id = shape

namespace Extends

theorem refl : k.Extends k := ⟨fun _ _ => id, fun _ _ => rfl, fun _ _ => id, fun _ _ _ h _ => h⟩

/-- Operators do not vanish. -/
theorem live (h : k.Extends k') (hx : k.graph.operator? x ≠ none) :
    k'.graph.operator? x ≠ none := by
  obtain ⟨op, hop⟩ := Option.ne_none_iff_exists'.1 hx
  simp [h.operators x op hop]

/-- Sketches may be extended twice. -/
theorem trans (h : k.Extends k') (h' : k'.Extends k'') : k.Extends k'' where
  operators x op hop := h'.operators x op (h.operators x op hop)
  shapes x hx := (h'.shapes x (h.live hx)).trans (h.shapes x hx)
  reads x i hi := h'.reads x i (h.reads x i hi)
  feedback x i hx hi hf := h.feedback x i hx (h'.feedback x i (h.live hx) hi hf) hf

/-- A union that was no start of a loop does not become one. -/
theorem unlooped (h : k.Extends k') (hx : k.graph.operator? x ≠ none) (hu : k.graph.Unlooped x) :
    k'.graph.Unlooped x := fun i hop hi => by
  obtain ⟨op, hop'⟩ := Option.ne_none_iff_exists'.1 hx
  obtain rfl := Option.some.inj (hop.symm.trans (h.operators x op hop'))
  cases hf : i.feedback with
  | false => rfl
  | true => exact absurd ((hu i hop' (h.feedback x i hx hi hf)).symm.trans hf) Bool.noConfusion

/-- Shapes do not change. -/
theorem shape_eq (h : k.Extends k') (hx : k.shapes x = some D) : k'.shapes x = some D :=
  (h.shapes x (live_of_shape (by simp [hx]))).trans hx

end Extends

/-- What is offered is still offered. -/
theorem Offers.mono (h : k.Offers id D) (hle : k.Extends k') : k'.Offers id D :=
  ⟨hle.shape_eq h.shape, hle.unlooped (live_of_shape (by simp [h.shape])) h.unlooped⟩

theorem Offers.live (h : k.Offers id D) : k.graph.operator? id ≠ none :=
  live_of_shape (by simp [h.shape])

/-- What takes rows still takes them. -/
theorem Takes.mono (h : k.Takes c) (hle : k.Extends k') : k'.Takes c := by
  obtain ⟨op, hop, hkind⟩ := h.operator
  exact ⟨⟨op, hle.operators _ _ hop, hkind⟩, (hle.shapes _ (by simp [hop])).trans h.shape⟩

namespace Changes

/-- An operator that is changed keeps its kind. -/
theorem operators (h : k.Changes k' id) (hop : k.graph.operator? x = some op) :
    k'.graph.operator? x = some op := by
  by_cases hx : x = id
  · subst hx
    exact h.kept op hop
  · exact (h.same x hx).trans hop

/-- An operator that is changed keeps its inputs. -/
theorem reads (h : k.Changes k' id) {i : Input} (hi : k.graph.Reads x i) : k'.graph.Reads x i := by
  by_cases hx : x = id
  · subst hx
    exact h.kept_reads i hi
  · exact (h.same_reads x i hx).2 hi

/-- A change at an operator that was not there extends the sketch. -/
theorem extends_of_fresh (h : k.Changes k' id) (hid : k.graph.operator? id = none) :
    k.Extends k' := by
  have hne {x : OperatorId} (hx : k.graph.operator? x ≠ none) : x ≠ id := by
    rintro rfl
    exact hx hid
  exact ⟨fun _ _ => h.operators, fun x hx => h.same_shape x (hne hx), fun _ _ => h.reads,
    fun x i hx hi _ => (h.same_reads x i (hne hx)).1 hi⟩

end Changes

/-- To add an operator extends a sketch. -/
theorem Adds.toExtends {shape : Option VarSet} (h : k.Adds k' id op inputs shape) : k.Extends k' :=
  h.toChanges.extends_of_fresh h.fresh

namespace Beside

theorem refl : k.Beside k := by
  refine ⟨fun _ _ => id, fun _ _ => rfl, fun _ _ _ => Iff.rfl, fun x i hx hi => ?_⟩
  exact absurd hx ((Graph.Wired.of_linked k.regular.linked).ends_of_reads hi).1

/-- To draw beside a sketch extends it. -/
theorem toExtends (h : k.Beside k') : k.Extends k' where
  operators := h.operators
  shapes := h.shapes
  reads x i hi :=
    (h.inputs x i ((Graph.Wired.of_linked k.regular.linked).ends_of_reads hi).1).2 hi
  feedback x i hx hi _ := (h.inputs x i hx).1 hi

/-- What is drawn beside a sketch is joined by more that is drawn beside it. -/
theorem trans (h : k.Beside k') (h' : k'.Beside k'') : k.Beside k'' where
  operators x op hop := h'.operators x op (h.operators x op hop)
  shapes x hx := (h'.shapes x (h.toExtends.live hx)).trans (h.shapes x hx)
  inputs x i hx := (h'.inputs x i (h.toExtends.live hx)).trans (h.inputs x i hx)
  sources x i hx hi := by
    by_cases hx' : k'.graph.operator? x = none
    · refine (h'.sources x i hx' hi).imp id fun hsource => ?_
      by_contra hlive
      exact h.toExtends.live hlive hsource
    · exact h.sources x i hx ((h'.inputs x i hx').1 hi)

/-- A change at a new operator is one beside the rest, if the operator reads new operators only. -/
theorem change (h : k₀.Beside k) (hchange : k.Changes k' id) (hid : k₀.graph.operator? id = none)
    (hinputs : ∀ i, k'.graph.Reads id i → k.graph.Reads id i ∨ i.source = Graph.root ∨
      k₀.graph.operator? i.source = none) : k₀.Beside k' := by
  have hne {x : OperatorId} (hx : k₀.graph.operator? x ≠ none) : x ≠ id := by
    rintro rfl
    exact hx hid
  refine ⟨fun x op hop => hchange.operators (h.operators x op hop), fun x hx => ?_,
    fun x i hx => ?_,
    fun x i hx hi => ?_⟩
  · exact (hchange.same_shape x (hne hx)).trans (h.shapes x hx)
  · exact (hchange.same_reads x i (hne hx)).trans (h.inputs x i hx)
  · by_cases hxid : x = id
    · subst hxid
      rcases hinputs i hi with hi | hi
      · exact h.sources x i hx hi
      · exact hi
    · exact h.sources x i hx ((hchange.same_reads x i hxid).1 hi)

end Beside

/-! ### Steps of sketches -/

/-- A sketch is changed at one operator if its graph is. -/
theorem exists_changed (k : Sketch rules) (id : OperatorId) (op : Operator Plan) (g' : Graph Plan)
    (shapes' : Shapes)
    (he : Graph.Extension rules k.graph g' k.shapes shapes' (· = id))
    (hop : g'.operator? id = some op) (hnested : ∀ e ∈ op.nested, e.2.Finished false)
    (hreads : ∀ i, k.graph.Reads id i → g'.Reads id i) :
    ∃ k' : Sketch rules, k'.graph = g' ∧ k'.wiring = k.wiring ∧ k'.shapes = shapes' ∧
      k.Changes k' id := by
  have hroot : Graph.root ≠ id := he.not_open (by simp [k.regular.root_shape])
  refine ⟨{ graph := g', wiring := k.wiring, shapes := shapes', regular := he.regular k.regular
            unfed := fun i hi => k.unfed i ((he.same_reads _ i hroot).1 hi)
            dead := fun x hx => ?_
            nested := fun x op' hop' => ?_
            wired := k.wired.mono fun _ _ => he.operators }, rfl, rfl, rfl, ?_⟩
  · by_cases hxid : x = id
    · rw [hxid, hop] at hx
      cases hx
    · exact (he.same_shape x hxid).trans (k.dead x ((he.same x hxid).symm.trans hx))
  · by_cases hxid : x = id
    · rw [hxid, hop] at hop'
      exact Option.some.inj hop' ▸ hnested
    · exact k.nested x op' ((he.same x hxid).symm.trans hop')
  · exact ⟨he.same, he.same_shape, he.same_reads, fun op => he.kept id op rfl, hreads⟩

/-- An operator gets its shape. -/
theorem exists_settled (k : Sketch rules) (hop : k.graph.operator? id = some op)
    (hshape : k.shapes id = none) (hsettled : k.graph.Settled k.shapes id op D) :
    ∃ k' : Sketch rules, k'.graph = k.graph ∧ k'.wiring = k.wiring ∧ k'.shapes id = some D ∧
      k.Changes k' id := by
  have hkept {x : OperatorId} {E : VarSet} (hx : k.shapes x = some E) :
      (if x = id then some D else k.shapes x) = some E := by
    rw [if_neg, hx]
    rintro rfl
    cases hshape.symm.trans hx
  obtain ⟨k', hgraph, hwiring, hshapes, hchanges⟩ := k.exists_changed id op
    k.graph (fun x => if x = id then some D else k.shapes x)
    { linked := k.regular.linked
      unshaped := fun x hx => hx ▸ hshape
      same := fun _ _ => rfl
      same_shape := fun x hx => if_neg hx
      same_reads := fun _ _ _ => Iff.rfl
      kept := fun _ _ _ => (fun h => h)
      fed := fun x op' _ hop' => k.regular.fed hop'
      settled := fun x op' E hx hop' hE => by
        subst hx
        obtain rfl := Option.some.inj (hop.symm.trans hop')
        obtain rfl := Option.some.inj ((if_pos rfl).symm.trans hE)
        exact hsettled.transfer (fun _ => Iff.rfl) fun _ _ _ => hkept
      feedback := fun _ _ _ hi _ => .inl hi
      unlooped := fun _ _ _ hi => .inl hi } hop (k.nested id op hop) fun _ => (fun h => h)
  exact ⟨k', hgraph, hwiring, by rw [hshapes]; exact if_pos rfl, hchanges⟩

/-- A union that may be fed back is fed back. -/
theorem exists_looped (k : Sketch rules) {u known back : OperatorId} {operand : Nat}
    {g' : Graph Plan} (h : k.graph.Loopable k.shapes u known back D)
    (hwired : g'.Wired k.graph.slots.length k.graph.operator? fun x i =>
      k.graph.Reads x i ∨ x = u ∧ i = ⟨back, operand, true⟩) :
    ∃ k' : Sketch rules, k'.graph = g' ∧ k'.wiring = k.wiring ∧ k'.shapes = k.shapes ∧
      k.Changes k' u ∧ ∀ x i, k'.graph.Reads x i ↔ k.graph.Reads x i ∨
        x = u ∧ i = ⟨back, operand, true⟩ := by
  have hlooping : Graph.Looping k.graph g' k.shapes u known back operand D :=
    { h with linked := hwired.linked, same := hwired.operator?, reads := hwired.reads }
  have hroot : Graph.root ≠ u := by
    rintro rfl
    cases k.regular.root.symm.trans h.union
  refine ⟨{ graph := g', wiring := k.wiring, shapes := k.shapes
            regular := hlooping.regular k.regular
            unfed := fun i hi => k.unfed i ((hlooping.reads_of_ne hroot i).1 hi)
            dead := fun x hx => k.dead x ((hwired.operator? x).symm.trans hx)
            nested := fun x op hop => k.nested x op ((hwired.operator? x).symm.trans hop)
            wired := k.wired.mono fun x op hop => (hwired.operator? x).trans hop },
    rfl, rfl, rfl, ?_, hwired.reads⟩
  exact ⟨fun x _ => hwired.operator? x, fun _ _ => rfl, fun _ i hx => hlooping.reads_of_ne hx i,
    fun op hop => (hwired.operator? u).trans hop, fun i hi => (hwired.reads u i).2 (.inl hi)⟩

end Sketch

/-! ## Drawings -/

/-- The drawing leads from the sketch to a sketch about which something is known. -/
def Sketches {rules : Bool} {α : Type} (k : Sketch rules) (draw : Draw α)
    (post : Sketch rules → α → Prop) : Prop :=
  ∀ d : Draft, k.Of d → draw.Ends d fun a d' => ∃ k' : Sketch rules, k'.Of d' ∧ post k' a

namespace Sketches

variable {rules : Bool} {α β : Type} {k k' : Sketch rules} {draw : Draw α}
  {post post' : Sketch rules → α → Prop} {next : Sketch rules → β → Prop}

/-- What has been decided is returned. -/
theorem pure {a : α} (ha : post k a) : Sketches k (Pure.pure a : Draw α) post :=
  fun _ h => Edit.ends_pure.2 ⟨k, h, ha⟩

theorem malformed {cause : Malformed} : Sketches k (Draw.malformed cause : Draw α) post :=
  fun _ _ => Draw.ends_malformed

theorem unsupported {cause : Unsupported} : Sketches k (Draw.unsupported cause : Draw α) post :=
  fun _ _ => Draw.ends_unsupported

/-- The next drawing goes on from where the first one has ended. -/
theorem bind {f : α → Draw β} (h : Sketches k draw post)
    (hf : ∀ k' a, post k' a → Sketches k' (f a) next) : Sketches k (draw >>= f) next :=
  fun d hd => (h d hd).bind fun a d' ⟨k', hd', ha⟩ => hf k' a ha d' hd'

/-- Nothing is drawn after a failure. -/
theorem stopped {cause : Malformed} {f : α → Draw β} :
    Sketches k ((Draw.malformed cause : Draw α) >>= f) next :=
  fun _ _ => Edit.ends_bind.2 Draw.ends_malformed

/-- Less may be said of what has been drawn. -/
theorem mono (h : Sketches k draw post) (hpost : ∀ k' a, post k' a → post' k' a) :
    Sketches k draw post' :=
  fun d hd => (h d hd).mono fun _ _ ⟨k', hd', ha⟩ => ⟨k', hd', hpost k' _ ha⟩

/-- What is known of an operator may be settled after a drawing. -/
theorem settle (h : Sketches k draw post) (hsettle : ∀ k' a, post k' a → ∃ k'' : Sketch rules,
    k''.graph = k'.graph ∧ k''.wiring = k'.wiring ∧ post' k'' a) : Sketches k draw post' :=
  fun d hd => (h d hd).mono fun _ _ ⟨k', hd', ha⟩ =>
    have ⟨k'', hgraph, hwiring, ha⟩ := hsettle k' _ ha
    ⟨k'', ⟨hd'.graph.trans hgraph.symm, hd'.wiring.trans hwiring.symm⟩, ha⟩

/-- Either branch may be drawn, each under its condition. -/
theorem ite {c : Prop} [Decidable c] {first second : Draw α} (h : c → Sketches k first post)
    (h' : ¬ c → Sketches k second post) : Sketches k (if c then first else second) post := by
  split
  · next hc => exact h hc
  · next hc => exact h' hc

/-- Numbers may be handed out. -/
theorem of_same (h : ∀ d : Draft, draw.Ends d fun a d' =>
    d'.graph = d.graph ∧ d'.wiring = d.wiring ∧ post k a) : Sketches k draw post :=
  fun d hd => (h d).mono fun _ _ ⟨hgraph, hwiring, ha⟩ =>
    ⟨k, ⟨hgraph.trans hd.graph, hwiring.trans hd.wiring⟩, ha⟩

/-- A fresh variable changes nothing in a sketch. -/
theorem freshVar : Sketches k Draw.freshVar fun k' _ => k' = k := by
  refine of_same fun d => ?_
  unfold Draw.freshVar
  exact Edit.ends_bind.2 (Edit.ends_get.2 (Edit.ends_bind.2 (Edit.ends_set.2
    (Edit.ends_pure.2 ⟨rfl, rfl, rfl⟩))))

/-- An edit of the graph leads to a sketch of the new graph. -/
theorem onGraph {edit : Edit (Graph Plan) α} (h : edit.Ends k.graph fun a g' =>
    ∃ k' : Sketch rules, k'.graph = g' ∧ k'.wiring = k.wiring ∧ post k' a) :
    Sketches k (Draw.onGraph edit) post := by
  intro d hd
  refine Edit.ends_within.2 ?_
  rw [hd.graph]
  refine h.mono fun a g' ⟨k', hgraph, hwiring, ha⟩ => ⟨k', ⟨hgraph.symm, ?_⟩, ha⟩
  exact hd.wiring.trans hwiring.symm

/-- Drawings in a row, each of which extends the sketch. -/
theorem forM {l : List β} {f : β → Draw PUnit}
    (h : ∀ b ∈ l, ∀ k', k.Extends k' → Sketches k' (f b) fun k'' _ => k'.Extends k'') :
    Sketches k (l.forM f) fun k' _ => k.Extends k' := by
  induction l generalizing k with
  | nil => exact pure .refl
  | cons b rest ih =>
      rw [List.forM_eq_forM, List.forM_cons]
      refine (h b List.mem_cons_self k .refl).bind fun k₁ _ h₁ => ?_
      refine (ih fun b hb k' hk' => h b (List.mem_cons_of_mem _ hb) k' (h₁.trans hk')).mono ?_
      exact fun _ _ h₂ => h₁.trans h₂

/-- An edge to an operator that accepts it. -/
theorem connect {s t : OperatorId} {n : Nat} (h : k.Accepts s ⟨t, n⟩) :
    Sketches k (Draw.connect s t n) fun k' _ => k.Changes k' t ∧ k.Extends k' ∧
      k'.shapes t = none ∧ ∀ i, k'.graph.Reads t i ↔ k.graph.Reads t i ∨ i = ⟨s, n, false⟩ := by
  obtain ⟨⟨op, hop, hkind, hoptional, hrename⟩, hshape, hunlooped⟩ := h
  refine onGraph ((Graph.wired_connect (.of_linked k.regular.linked) n false).mono
    fun _ g' ⟨hs, ht, hwired⟩ => ?_)
  have hreads (i : Input) : g'.Reads t i ↔ k.graph.Reads t i ∨ i = ⟨s, n, false⟩ := by
    rw [hwired.reads, and_iff_right rfl]
  have hfed := k.regular.fed hop
  obtain ⟨k', hgraph, hwiring, hshapes, hchanges⟩ := k.exists_changed t op g' k.shapes
    { linked := hwired.linked
      unshaped := fun x hx => hx ▸ hshape
      same := fun x _ => hwired.operator? x
      same_shape := fun _ _ => rfl
      same_reads := fun x i hx => by rw [hwired.reads, or_iff_left fun h => hx h.1]
      kept := fun x op _ hop => (hwired.operator? x).trans hop
      fed := fun x op' hx hop' => by
        subst hx
        obtain rfl := Option.some.inj (hop.symm.trans ((hwired.operator? x).symm.trans hop'))
        refine ⟨hfed.plain, fun he => absurd he hkind, fun he i hi => ?_,
          fun he i op' hi hop' => ?_⟩
        · rcases (hreads i).1 hi with hi | rfl
          · exact hfed.optional he i hi
          · exact hoptional he
        · rw [hwired.operator?] at hop'
          rcases (hreads i).1 hi with hi | rfl
          · exact hfed.renamed he i op' hi hop'
          · exact hrename he op' hop'
      settled := fun x op' E hx _ hE => by cases hshape.symm.trans (hx ▸ hE)
      feedback := fun x i hx hi hf => by
        subst hx
        refine .inl (((hreads i).1 hi).resolve_right ?_)
        rintro rfl
        cases hf
      unlooped := fun x i hx hi => by
        subst hx
        refine ((hreads i).1 hi).imp_right ?_
        rintro rfl
        exact hunlooped } ((hwired.operator? t).trans hop) (k.nested t op hop)
      fun i hi => (hreads i).2 (.inl hi)
  subst hgraph
  refine ⟨k', rfl, hwiring, hchanges, ⟨fun _ _ => hchanges.operators, fun x _ => by rw [hshapes],
    fun _ _ => hchanges.reads, fun x i hx hi hf => ?_⟩, by rw [hshapes, hshape], hreads⟩
  by_cases hxt : x = t
  · subst hxt
    refine ((hreads i).1 hi).resolve_right ?_
    rintro rfl
    cases hf
  · exact (hchanges.same_reads x i hxt).1 hi

end Sketches

/-! ## Operators over others -/

namespace PathPlanner

variable {rules : Bool} {k : Sketch rules} {op : Operator Plan} {inputs : List OperatorId}

/-- An operator that combines others reads each of them on an operand of its own. -/
theorem wired_combine {d : Draft} {size : Nat} {ops : OperatorId → Option (Operator Plan)}
    {reads : OperatorId → Input → Prop} (h : d.graph.Wired size ops reads) (op : Operator Plan)
    (inputs : List OperatorId) : (combine op inputs).Ends d fun id d' =>
      id = size ∧ d'.wiring = d.wiring ∧
        d'.graph.Wired (size + 1) (fun x => if x = size then some op else ops x)
          fun x i => reads x i ∨ x = size ∧ i ∈ inputsFrom inputs := by
  unfold combine Draw.add Draw.onGraph
  have hadd : (Edit.within Draft.graph (fun g d => { d with graph := g }) (Graph.add op)).Ends d
      fun id d' => id = size ∧ d'.wiring = d.wiring ∧ d'.graph.Wired (size + 1)
        (fun x => if x = size then some op else ops x) reads :=
    Edit.ends_within.2 ((Graph.wired_add h op).mono fun id g ⟨hid, h'⟩ => ⟨hid, rfl, hid ▸ h'⟩)
  refine hadd.bind ?_
  rintro id d₁ ⟨rfl, hwiring₁, h₁⟩
  refine Edit.Ends.bind
    (Edit.ends_forM_of_step (fun (done : List (OperatorId × Nat)) (d' : Draft) =>
    d'.wiring = d.wiring ∧ d'.graph.Wired (id + 1) (fun x => if x = id then some op else ops x)
      fun x i => reads x i ∨ x = id ∧ i ∈ done.map fun e => ⟨e.1, e.2, false⟩)
    ⟨hwiring₁, h₁.congr (fun _ => rfl) (by simp)⟩ fun done e rest _ d' ⟨hwiring, h'⟩ => ?_)
      fun _ d₂ ⟨hwiring, h₂⟩ => Edit.ends_pure.2 ⟨rfl, hwiring, h₂⟩
  obtain ⟨s, operand⟩ := e
  unfold Draw.connect Draw.onGraph
  refine Edit.ends_within.2 ((Graph.wired_connect h' operand false).mono fun _ g ⟨_, _, h''⟩ =>
    ⟨hwiring, h''.congr (fun _ => rfl) fun x i => ?_⟩)
  simp only [List.map_append, List.map_cons, List.map_nil, List.mem_append, List.mem_singleton,
    and_or_left, or_assoc]

/-- An operator over others may be given a shape at once. Scans and probes read the root. -/
theorem sketches_combine (shape : Option VarSet) (hop : op.Drawable rules)
    (hoptional : op.kind = .optional → inputs = [])
    (hsource : op.kind ∈ [.scan, .probe] → inputs = [Graph.root])
    (hrenamed : op.kind = .replaceVar → ∀ s ∈ inputs, ∀ op', k.graph.operator? s = some op' →
      op'.kind ∈ Operator.deduplicating)
    (hinputs : ∀ s ∈ inputs, k.graph.operator? s ≠ none ∧ k.graph.Unlooped s)
    (hsettled : ∀ D, shape = some D → ∀ (g : Graph Plan) (id : OperatorId),
      (∀ i, g.Reads id i ↔ i ∈ inputsFrom inputs) → g.Settled k.shapes id op D) :
    Sketches k (combine op inputs) fun k' id => k.Adds k' id op (· ∈ inputsFrom inputs) shape := by
  intro d hd
  have hwired : k.graph.Wired k.graph.slots.length k.graph.operator? k.graph.Reads :=
    .of_linked k.regular.linked
  have hdraft : d.graph.Wired k.graph.slots.length k.graph.operator? k.graph.Reads := by
    rw [hd.graph]
    exact hwired
  refine (wired_combine hdraft op inputs).mono fun n d' ⟨hn, hwiring, h'⟩ => ?_
  rw [← hn] at h'
  have hfresh : k.graph.operator? n = none := hwired.eq_none_of_le hn.ge
  have hnew : d'.graph.operator? n = some op := (h'.operator? _).trans (if_pos rfl)
  have hreads (i : Input) : d'.graph.Reads n i ↔ i ∈ inputsFrom inputs := by
    rw [h'.reads, and_iff_right rfl, or_iff_right fun hi => (hwired.ends_of_reads hi).1 hfresh]
  have hold {i : Input} (hi : i ∈ inputsFrom inputs) : k.graph.operator? i.source ≠ none :=
    (hinputs _ (mem_inputsFrom hi).2).1
  have hne {x : OperatorId} (hx : k.graph.operator? x ≠ none) : x ≠ n := fun he => hx (he ▸ hfresh)
  obtain ⟨k', hgraph, hwiring', hshapes, hchanges⟩ := k.exists_changed n op d'.graph
    (fun x => if x = n then shape else k.shapes x)
    { linked := h'.linked
      unshaped := fun x hx => hx ▸ k.dead n hfresh
      same := fun x hx => (h'.operator? x).trans (if_neg hx)
      same_shape := fun x hx => if_neg hx
      same_reads := fun x i hx => by rw [h'.reads, or_iff_left fun h => hx h.1]
      kept := fun x op' hx hop' => by
        subst hx
        cases hfresh.symm.trans hop'
      fed := fun x op' hx hop' => by
        subst hx
        obtain rfl := Option.some.inj (hnew.symm.trans hop')
        refine ⟨hop.1, fun hkind => ?_, fun hkind i hi => ?_, fun hkind i op' hi hop' => ?_⟩
        · simp only [hreads, hsource hkind]
          exact ⟨fun i hi => List.mem_singleton.1 (mem_inputsFrom hi).2, ⟨Graph.root, 0, false⟩,
            List.mem_singleton_self _⟩
        · have hi := (hreads i).1 hi
          rw [hoptional hkind] at hi
          cases hi
        · have hi := (hreads i).1 hi
          rw [h'.operator?, if_neg (hne (hold hi))] at hop'
          exact hrenamed hkind _ (mem_inputsFrom hi).2 op' hop'
      settled := fun x op' D hx hop' hD => by
        subst hx
        obtain rfl := Option.some.inj (hnew.symm.trans hop')
        refine (hsettled D ((if_pos rfl).symm.trans hD) d'.graph x hreads).transfer
          (fun _ => Iff.rfl) fun i E hi hE => ?_
        rw [if_neg (hne (hold ((hreads i).1 hi)))]
        exact hE
      feedback := fun x i hx hi hf => by
        subst hx
        cases (mem_inputsFrom ((hreads i).1 hi)).1.symm.trans hf
      unlooped := fun x i hx hi => by
        subst hx
        exact .inr (hinputs _ (mem_inputsFrom ((hreads i).1 hi)).2).2 } hnew hop.2
      fun i hi => absurd hfresh (hwired.ends_of_reads hi).1
  refine ⟨k', ⟨hgraph.symm, hwiring.trans (hd.wiring.trans hwiring'.symm)⟩, hchanges,
    hfresh, ?_, ?_, ?_⟩
  · rw [hgraph, hnew]
  · rw [hgraph]
    exact hreads
  · rw [hshapes]
    exact if_pos rfl

end PathPlanner

end QuadAlgebra
