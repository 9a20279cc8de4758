import QuadAlgebra.Proofs.Planning.Closure
import QuadAlgebra.Proofs.Variables.Paths

/-!
# Sketches of repeated paths

Copies of a path in a row are joined. The join stays open while the copies are drawn, and it gets
its shape once all of them feed it (`Sketch.Joining.settle`). A loop is closed in the end: the union
that starts it is read by one operator only, and nothing comes back to it before something comes out
of it, so it may be fed back (`PathPlanner.sketches_loop`). With that the domain of every path is
known (`Path.drawsEnds`).
-/

namespace QuadAlgebra

open PathPlanner (inputsFrom)

theorem PathPlanner.mem_inputsFrom_iff {producers : List OperatorId} {i : Input} :
    i ∈ inputsFrom producers ↔ producers[i.operand]? = some i.source ∧ i.feedback = false := by
  obtain ⟨source, operand, feedback⟩ := i
  simp only [inputsFrom, List.mem_map, Prod.exists, List.mem_zipIdx_iff_getElem?, Input.mk.injEq]
  constructor
  · rintro ⟨s, n, hs, rfl, rfl, rfl⟩
    exact ⟨hs, rfl⟩
  · rintro ⟨hs, rfl⟩
    exact ⟨source, operand, hs, rfl, rfl, rfl⟩

namespace Sketch

variable {rules : Bool} {k₀ k k' k'' : Sketch rules} {outs parts : List (OperatorId × VarSet)}
  {id x u t join : OperatorId} {op : Operator Plan} {inputs : List OperatorId} {D E : VarSet}
  {draw : Draw OperatorId}

/-! ## What drawings keep -/

/-- Operators stay, and those with a shape keep it and read what they have read before. -/
structure Keeps (k k' : Sketch rules) : Prop where
  operators : ∀ x op, k.graph.operator? x = some op → k'.graph.operator? x = some op
  shapes : ∀ x D, k.shapes x = some D → k'.shapes x = some D
  inputs : ∀ x i, k.shapes x ≠ none → (k'.graph.Reads x i ↔ k.graph.Reads x i)

/-- New edges come from the root and from new operators. -/
structure Apart (k k' : Sketch rules) : Prop extends Keeps k k' where
  readers : ∀ x i, k'.graph.Reads x i →
    k.graph.Reads x i ∨ i.source = Graph.root ∨ k.graph.operator? i.source = none

theorem Keeps.trans (h : k.Keeps k') (h' : k'.Keeps k'') : k.Keeps k'' where
  operators x op hop := h'.operators x op (h.operators x op hop)
  shapes x D hD := h'.shapes x D (h.shapes x D hD)
  inputs x i hx := by
    obtain ⟨D, hD⟩ := Option.ne_none_iff_exists'.1 hx
    exact (h'.inputs x i (by simp [h.shapes x D hD])).trans (h.inputs x i hx)

theorem Apart.trans (h : k.Apart k') (h' : k'.Apart k'') : k.Apart k'' := by
  refine ⟨h.toKeeps.trans h'.toKeeps, fun x i hi => ?_⟩
  rcases h'.readers x i hi with hi | hi | hi
  · exact h.readers x i hi
  · exact .inr (.inl hi)
  · refine .inr (.inr ?_)
    by_contra hlive
    obtain ⟨op, hop⟩ := Option.ne_none_iff_exists'.1 hlive
    exact absurd ((h.operators _ op hop).symm.trans hi) (Option.some_ne_none op)

theorem Changes.keeps (h : k.Changes k' id) (hid : k.shapes id = none) : k.Keeps k' := by
  have hne {x : OperatorId} (hx : k.shapes x ≠ none) : x ≠ id := by
    rintro rfl
    exact hx hid
  refine ⟨fun _ _ => h.operators, fun x D hD => ?_, fun x i hx => h.same_reads x i (hne hx)⟩
  exact (h.same_shape x (hne (by simp [hD]))).trans hD

theorem Adds.keeps {reads : Input → Prop} {shape : Option VarSet}
    (h : k.Adds k' id op reads shape) : k.Keeps k' :=
  h.toChanges.keeps (k.dead id h.fresh)

theorem Beside.keeps (h : k.Beside k') : k.Keeps k' where
  operators := h.operators
  shapes _ _ hD := h.toExtends.shape_eq hD
  inputs x i hx := h.inputs x i (live_of_shape hx)

theorem Beside.apart (h : k.Beside k') : k.Apart k' := by
  refine ⟨h.keeps, fun x i hi => ?_⟩
  by_cases hx : k.graph.operator? x = none
  · exact .inr (h.sources x i hx hi)
  · exact .inl ((h.inputs x i hx).1 hi)

/-- An edge from an operator that has been drawn beside the rest. -/
theorem Apart.connected (h : k.Apart k') (hchanges : k'.Changes k'' t) (ht : k'.shapes t = none)
    {new : Input} (hreads : ∀ i, k''.graph.Reads t i ↔ k'.graph.Reads t i ∨ i = new)
    (hnew : k.graph.operator? new.source = none) : k.Apart k'' := by
  refine ⟨h.toKeeps.trans (hchanges.keeps ht), fun x i hi => ?_⟩
  by_cases hx : x = t
  · subst hx
    rcases (hreads i).1 hi with hi | rfl
    · exact h.readers x i hi
    · exact .inr (.inr hnew)
  · exact h.readers x i ((hchanges.same_reads x i hx).1 hi)

theorem Adds.ne {reads : Input → Prop} {shape : Option VarSet} {op' : Operator Plan}
    (h : k.Adds k' id op reads shape) (hx : k.graph.operator? x = some op') : x ≠ id := by
  rintro rfl
  exact absurd (h.fresh.symm.trans hx) (Option.some_ne_none op').symm

/-! ## Single operators -/

/-- An operator with a shape and with these inputs. -/
structure Stands (k : Sketch rules) (id : OperatorId) (op : Operator Plan)
    (inputs : List OperatorId) (D : VarSet) : Prop where
  operator : k.graph.operator? id = some op
  shape : k.shapes id = some D
  inputs : ∀ i, k.graph.Reads id i ↔ i ∈ inputsFrom inputs

theorem Adds.stands (h : k.Adds k' id op (· ∈ inputsFrom inputs) (some D)) :
    k'.Stands id op inputs D := ⟨h.operator, h.shape, h.inputs⟩

theorem Stands.mono (h : k.Stands id op inputs D) (hkeeps : k.Keeps k') :
    k'.Stands id op inputs D where
  operator := hkeeps.operators id op h.operator
  shape := hkeeps.shapes id D h.shape
  inputs i := (hkeeps.inputs id i (by simp [h.shape])).trans (h.inputs i)

/-- An operator over one other waits for it. -/
theorem Stands.waiting {input : OperatorId} {S : OperatorId → Prop} (h : k.Stands id op [input] D)
    (hroot : op.kind ≠ .root) (hinput : S input) : k.graph.Waiting k.shapes S id := by
  have hone {i : Input} (hi : k.graph.Reads id i) : i = ⟨input, 0, false⟩ := by
    simpa [inputsFrom] using (h.inputs i).1 hi
  refine ⟨by simp [h.shape], fun op' hop' => ?_⟩
  obtain rfl := Option.some.inj (h.operator.symm.trans hop')
  refine ⟨hroot, fun _ => ⟨⟨input, 0, false⟩, (h.inputs _).2 (by simp [inputsFrom]), ?_⟩, ?_⟩
  · intro j hj _
    rw [hone hj]
    exact hinput
  · intro _ i hi _
    rw [hone hi]
    exact hinput

/-- A join waits for its first operand. -/
theorem Stands.waiting_join {first : OperatorId} {S : OperatorId → Prop}
    (h : k.Stands id .join (first :: inputs) D) (hfirst : S first) :
    k.graph.Waiting k.shapes S id := by
  refine ⟨by simp [h.shape], fun op' hop' => ?_⟩
  obtain rfl := Option.some.inj (h.operator.symm.trans hop')
  refine ⟨Kind.noConfusion, fun _ => ⟨⟨first, 0, false⟩, (h.inputs _).2 ?_, fun j hj hzero => ?_⟩,
    fun hne => absurd rfl hne⟩
  · exact PathPlanner.mem_inputsFrom_iff.2 ⟨rfl, rfl⟩
  · have hsource := (PathPlanner.mem_inputsFrom_iff.1 ((h.inputs j).1 hj)).1
    rw [hzero] at hsource
    exact Option.some.inj hsource ▸ hfirst

/-- Nobody but the second operator reads the first one. -/
def ReadBy (k : Sketch rules) (u t : OperatorId) : Prop :=
  ∀ x i, k.graph.Reads x i → i.source = u → x = t ∧ i.feedback = false

theorem Adds.readBy {shape : Option VarSet} (h : k.Adds k' u op (· ∈ inputsFrom inputs) shape)
    (hinputs : ∀ s ∈ inputs, k.graph.operator? s ≠ none) : k'.ReadBy u t := by
  rintro x i hi rfl
  by_cases hx : x = i.source
  · subst hx
    exact absurd h.fresh (hinputs _ (PathPlanner.mem_inputsFrom ((h.inputs i).1 hi)).2)
  · refine absurd h.fresh ?_
    exact ((Graph.Wired.of_linked k.regular.linked).ends_of_reads ((h.same_reads x i hx).1 hi)).2

theorem ReadBy.adds {shape : Option VarSet} (h : k.ReadBy u t)
    (hadds : k.Adds k' id op (· ∈ inputsFrom inputs) shape) (hinputs : u ∈ inputs → id = t) :
    k'.ReadBy u t := by
  rintro x i hi rfl
  by_cases hx : x = id
  · subst hx
    have hi := PathPlanner.mem_inputsFrom ((hadds.inputs i).1 hi)
    exact ⟨hinputs hi.2, hi.1⟩
  · exact h x i ((hadds.same_reads x i hx).1 hi) rfl

theorem ReadBy.apart (h : k.ReadBy u t) (hapart : k.Apart k') (hroot : u ≠ Graph.root)
    (hu : k.graph.operator? u ≠ none) : k'.ReadBy u t := by
  rintro x i hi rfl
  rcases hapart.readers x i hi with hi | hi | hi
  · exact h x i hi rfl
  · exact absurd hi hroot
  · exact absurd hi hu

/-! ## Joins that are being fed -/

/-- A join without a shape, which reads the given operators beside a sketch. -/
structure Joining (k₀ k : Sketch rules) (join : OperatorId) (parts : List (OperatorId × VarSet)) :
    Prop extends Places k₀ k parts where
  new : k₀.graph.operator? join = none
  operator : k.graph.operator? join = some .join
  shape : k.shapes join = none
  inputs : ∀ i, k.graph.Reads join i ↔ i ∈ inputsFrom (parts.map Prod.fst)

namespace Joining

theorem start (h : k₀.Places k parts) : Sketches k (PathPlanner.combine .join (parts.map Prod.fst))
    fun k' join => k₀.Joining k' join parts ∧
      k.Adds k' join .join (· ∈ inputsFrom (parts.map Prod.fst)) none := by
  have hlive : ∀ s ∈ parts.map Prod.fst, ∃ E, (s, E) ∈ parts := fun s hs => by
    obtain ⟨part, hpart, rfl⟩ := List.mem_map.1 hs
    exact ⟨part.2, hpart⟩
  refine (PathPlanner.sketches_combine none (Operator.drawable_of_isOrdinary rfl)
    (fun he => Kind.noConfusion he) (fun he => by simp [Operator.kind] at he)
    (fun he => Kind.noConfusion he) (h.live hlive)
    fun D hD => (Option.some_ne_none D hD.symm).elim).mono fun k' join hadds => ⟨?_, hadds⟩
  have hbeside : k₀.Beside k' := by
    refine h.beside.change hadds.toChanges (h.beside.fresh hadds.fresh) fun i hi => .inr (.inr ?_)
    obtain ⟨E, hE⟩ := hlive _ (PathPlanner.mem_inputsFrom ((hadds.inputs i).1 hi)).2
    exact h.fresh _ hE
  exact ⟨⟨hbeside, fun out hout => (h.offers out hout).mono hadds.toExtends, h.fresh⟩,
    h.beside.fresh hadds.fresh, hadds.operator, hadds.shape, hadds.inputs⟩

/-- The next operand of a join is drawn and connected. -/
theorem feed (h : k₀.Joining k join parts) (hdraw : DrawsDomain rules draw D) {n : Nat}
    (hn : n = parts.length) : Sketches k (do Draw.connect (← draw) join n) fun k' _ =>
      (∃ part, k₀.Joining k' join (parts ++ [(part, D)])) ∧ k.Apart k' := by
  subst hn
  refine (hdraw k).bind fun k₁ part h₁ => ?_
  have hoffers := h₁.offers (part, D) List.mem_cons_self
  have hfresh := h₁.fresh (part, D) List.mem_cons_self
  have hop := h₁.beside.operators _ _ h.operator
  have hshape : k₁.shapes join = none :=
    (h₁.beside.shapes join (by simp [h.operator])).trans h.shape
  have haccepts : k₁.Accepts part ⟨join, parts.length⟩ :=
    ⟨⟨.join, hop, by simp [Operator.kind], fun he => Kind.noConfusion he,
      fun he => Kind.noConfusion he⟩, hshape, hoffers.unlooped⟩
  refine (Sketches.connect haccepts).mono fun k₂ _ ⟨hchanges, hextends, hshape₂, hreads⟩ => ?_
  refine ⟨⟨part, ⟨?_, ?_, ?_⟩, h.new, hextends.operators _ _ hop, hshape₂, fun i => ?_⟩, ?_⟩
  · refine (h.beside.trans h₁.beside).change hchanges h.new fun i hi => ?_
    rcases (hreads i).1 hi with hi | rfl
    · exact .inl hi
    · exact .inr (.inr (h.beside.fresh hfresh))
  · intro out hout
    rcases List.mem_append.1 hout with hout | hout
    · exact ((h.offers out hout).mono h₁.beside.toExtends).mono hextends
    · exact List.mem_singleton.1 hout ▸ hoffers.mono hextends
  · intro out hout
    rcases List.mem_append.1 hout with hout | hout
    · exact h.fresh out hout
    · exact List.mem_singleton.1 hout ▸ h.beside.fresh hfresh
  · rw [hreads, h₁.beside.inputs join i (by simp [h.operator]), h.inputs]
    simp [inputsFrom, List.zipIdx_append]
  · exact h₁.beside.apart.connected hchanges hshape hreads hfresh

/-- A join that has all its inputs gets its shape. -/
theorem exists_settled (h : k₀.Joining k join parts) : ∃ k' : Sketch rules, k'.graph = k.graph ∧
    k'.wiring = k.wiring ∧ k₀.Places k' ((join, OrdSet.unionOf Prod.snd parts) :: parts) ∧
      k'.Stands join .join (parts.map Prod.fst) (OrdSet.unionOf Prod.snd parts) ∧ k.Apart k' := by
  have hinput (i : Input) : k.graph.Reads join i ↔
      (∃ part, parts[i.operand]? = some part ∧ part.1 = i.source) ∧ i.feedback = false := by
    rw [h.inputs, PathPlanner.mem_inputsFrom_iff, List.getElem?_map, Option.map_eq_some_iff]
  have hsettled : k.graph.Settled k.shapes join .join (OrdSet.unionOf Prod.snd parts) := by
    refine ⟨fun n => (parts[n]?.map Prod.snd).getD ∅, fun i hi => ?_, fun v => ?_⟩
    · obtain ⟨⟨part, hpart, hsource⟩, -⟩ := (hinput i).1 hi
      simp only [hpart, Option.map_some, Option.getD_some, ← hsource]
      exact (h.offers part (List.mem_of_getElem? hpart)).shape
    · rw [OrdSet.mem_unionOf]
      constructor
      · rintro ⟨part, hpart, hv⟩
        obtain ⟨n, hn⟩ := List.mem_iff_getElem?.1 hpart
        refine ⟨⟨part.1, n, false⟩, (hinput _).2 ⟨⟨part, hn, rfl⟩, rfl⟩, ?_⟩
        simpa [hn] using hv
      · rintro ⟨i, hi, hv⟩
        obtain ⟨⟨part, hpart, -⟩, -⟩ := (hinput i).1 hi
        simp only [hpart, Option.map_some, Option.getD_some] at hv
        exact ⟨part, List.mem_of_getElem? hpart, hv⟩
  obtain ⟨k', hgraph, hwiring, hshape, hchanges⟩ :=
    k.exists_settled h.operator h.shape hsettled
  have hreads (x : OperatorId) (i : Input) : k'.graph.Reads x i ↔ k.graph.Reads x i := by
    rw [hgraph]
  have hforward {i : Input} (hi : k'.graph.Reads join i) : i.feedback = false :=
    ((hinput i).1 ((hreads join i).1 hi)).2
  have hkeeps := hchanges.keeps h.shape
  refine ⟨k', hgraph, hwiring, ⟨?_, fun out hout => ?_, fun out hout => ?_⟩,
    ⟨hkeeps.operators _ _ h.operator, hshape, fun i => (hreads join i).trans (h.inputs i)⟩,
    hkeeps, fun x i hi => .inl ((hreads x i).1 hi)⟩
  · exact h.beside.change hchanges h.new fun i hi => .inl ((hreads join i).1 hi)
  · rcases List.mem_cons.1 hout with rfl | hout
    · exact ⟨hshape, fun i _ hi => hforward hi⟩
    · have hoffers := h.offers out hout
      refine ⟨hkeeps.shapes _ _ hoffers.shape, fun i hop hi => ?_⟩
      rw [hgraph] at hop hi
      exact hoffers.unlooped i hop hi
  · rcases List.mem_cons.1 hout with rfl | hout
    · exact h.new
    · exact h.fresh out hout

/-- A join of operators that have been placed. -/
theorem of_placed (h : k₀.Places k parts) :
    Sketches k (PathPlanner.combine .join (parts.map Prod.fst)) fun k' join =>
      k₀.Places k' ((join, OrdSet.unionOf Prod.snd parts) :: parts) :=
  (start h).settle fun _ _ ⟨h₁, _⟩ =>
    have ⟨k₂, hgraph, hwiring, hplaces, _⟩ := h₁.exists_settled
    ⟨k₂, hgraph, hwiring, hplaces⟩

/-- The last operand of a join is drawn and connected. -/
theorem finish (h : k₀.Joining k join parts) (hdraw : DrawsDomain rules draw D) {n : Nat}
    (hn : n = parts.length) : Sketches k (do Draw.connect (← draw) join n) fun k' _ =>
      ∃ part, k₀.Places k' ((join, OrdSet.unionOf Prod.snd (parts ++ [(part, D)])) ::
          (parts ++ [(part, D)])) ∧
        k'.Stands join .join ((parts ++ [(part, D)]).map Prod.fst)
          (OrdSet.unionOf Prod.snd (parts ++ [(part, D)])) ∧ k.Apart k' := by
  refine (h.feed hdraw hn).settle fun k₁ _ ⟨⟨part, h₁⟩, hapart₁⟩ => ?_
  obtain ⟨k₂, hgraph, hwiring, hplaces, hstands, hapart₂⟩ := h₁.exists_settled
  exact ⟨k₂, hgraph, hwiring, part, hplaces, hstands, hapart₁.trans hapart₂⟩

end Joining

end Sketch

/-! ## Copies in a row -/

namespace PathPlanner

open Sketch

variable {rules : Bool} {pp : PathPlanner} {path : DrawPath} {s o : Item} {v : Variable}
  {k₀ k : Sketch rules} {parts : List (OperatorId × VarSet)} {join : OperatorId}

/-- A drawing in two steps, before something else is done. -/
theorem sketches_twice {α β γ : Type} {draw : Draw α} {f : α → Draw β} {next : β → Draw γ}
    {post : Sketch rules → β → Prop} {post' : Sketch rules → γ → Prop}
    (h : Sketches k (do f (← draw)) post)
    (hnext : ∀ k' b, post k' b → Sketches k' (next b) post') :
    Sketches k (do
      let b ← f (← draw)
      next b) post' := by
  have h' := h.bind hnext
  rwa [bind_assoc] at h'

/-- The copies bind what the first one starts with, unless there is none. -/
theorem sketches_copies (hpath : DrawsEnds rules pp path) (count : Nat) {first : Nat} {start : Item}
    (h : k₀.Joining k join parts) (hfirst : first = parts.length) :
    Sketches k (copies path join first count start) fun k' last =>
      ∃ more, k₀.Joining k' join (parts ++ more) ∧ more.length = count ∧
        ∀ v, .var v = start → .var v = last ∨ v ∈ OrdSet.unionOf Prod.snd more := by
  induction count generalizing k first start parts with
  | zero => exact .pure ⟨[], by simpa using h, rfl, fun v hv => .inl hv⟩
  | succ count ih =>
      unfold copies
      refine Sketches.freshVar.bind fun k₁ next hk => ?_
      subst hk
      refine sketches_twice (h.feed (hpath start (.var next)) hfirst) fun k₂ _ hstep => ?_
      obtain ⟨⟨part, h₂⟩, _⟩ := hstep
      refine (ih h₂ (by simp [hfirst])).mono fun k₃ last hstep => ?_
      obtain ⟨more, h₃, hlength, _⟩ := hstep
      refine ⟨(part, pp.endpoints start (.var next)) :: more, ?_, by simp [hlength], fun v hv => ?_⟩
      · simpa using h₃
      · exact .inr (OrdSet.mem_unionOf.2 ⟨_, List.mem_cons_self, mem_endpoints.2 (.inl hv)⟩)

/-- Copies of a path in a row, the last of which is drawn by another path. -/
theorem sketches_row {last : DrawPath} (hpath : DrawsEnds rules pp path)
    (hlast : DrawsEnds rules pp last) (count : Nat) (s o : Item)
    {finish : OperatorId → Draw OperatorId}
    {post : Sketch rules → OperatorId → Prop} (hfinish : ∀ k' join D outs,
      k.Places k' ((join, D) :: outs) → (∀ v ∈ pp.endpoints s o, v ∈ D) →
        Sketches k' (finish join) post) : Sketches k (do
      let join ← Draw.add .join
      let item ← copies path join 0 count s
      Draw.connect (← last item o) join count
      finish join) post := by
  have hadd : (Draw.add .join : Draw OperatorId) = combine .join [] := by simp [combine]
  rw [hadd]
  refine (Joining.start (Places.nil k)).bind fun k₁ join hstep => ?_
  obtain ⟨h₁, _⟩ := hstep
  refine (sketches_copies hpath count h₁ rfl).bind fun k₂ item hstep => ?_
  obtain ⟨more, h₂, hlength, hstart⟩ := hstep
  refine sketches_twice (h₂.finish (hlast item o) (by simp [hlength])) fun k₃ _ hplaced => ?_
  obtain ⟨part, h₃, -⟩ := hplaced
  refine hfinish k₃ join _ _ h₃ fun v hv => ?_
  have hend (hv : v ∈ pp.endpoints item o) : v ∈ OrdSet.unionOf Prod.snd ([] ++ more ++
      [(part, pp.endpoints item o)]) :=
    OrdSet.mem_unionOf.2 ⟨(part, pp.endpoints item o), by simp, hv⟩
  rcases mem_endpoints.1 hv with hv | hv | hv
  · rcases hstart v hv with hv | hv
    · exact hend (mem_endpoints.2 (.inl hv))
    · obtain ⟨p, hp, hv⟩ := OrdSet.mem_unionOf.1 hv
      exact OrdSet.mem_unionOf.2 ⟨p, by simp [hp], hv⟩
  · exact hend (mem_endpoints.2 (.inr (.inl hv)))
  · exact hend (mem_endpoints.2 (.inr (.inr hv)))

theorem drawsEnds_chain (hpath : DrawsEnds rules pp path) (count : Nat) :
    DrawsEnds rules pp (pp.chain path count) := by
  intro s o k
  unfold chain
  refine .ite (fun _ => hpath s o k) fun _ => ?_
  refine sketches_row hpath hpath (count - 1) s o fun k' join D outs h hD => ?_
  exact (places_project h List.mem_cons_self hD).mono fun _ _ h' => places_last h' rfl

theorem drawsEnds_positiveRange (hpath : DrawsEnds rules pp path) (min max : Nat) :
    DrawsEnds rules pp (pp.positiveRange path min max) := by
  intro s o k
  unfold positiveRange
  refine ((Places.nil k).mapM fun n _ => drawsEnds_chain hpath n s o).bind
    fun k₁ outputs hmany => ?_
  obtain ⟨-, h₁⟩ := hmany
  have hmember {x : OperatorId} (hx : x ∈ outputs) :
      (x, pp.endpoints s o) ∈ outputs.map (·, pp.endpoints s o) ++ [] :=
    List.mem_append_left _ (List.mem_map_of_mem hx)
  split
  · next single =>
    refine .pure (h₁.sub fun out hout => ?_)
    exact List.mem_singleton.1 hout ▸ hmember List.mem_cons_self
  · refine (h₁.union fun x hx => hmember hx).bind fun k₂ union ⟨h₂, _⟩ => ?_
    exact (places_distinct h₂ List.mem_cons_self).mono fun _ _ h₃ => places_last h₃ rfl

theorem drawsEnds_withZero (hpp : pp.planner.ScansPatterns) (hpath : DrawsEnds rules pp path) :
    DrawsEnds rules pp (pp.withZero path) := by
  intro s o k
  unfold withZero
  refine ((Places.nil k).next (drawsEnds_zeroLength hpp s o)).bind fun k₁ none h₁ => ?_
  refine (h₁.next (hpath s o)).bind fun k₂ more h₂ => h₂.pair.bind fun k₃ union h₃ => ?_
  exact (places_distinct h₃ List.mem_cons_self).mono fun _ _ h₄ => places_last h₄ rfl

theorem drawsEnds_bounded (hpp : pp.planner.ScansPatterns) (hpath : DrawsEnds rules pp path)
    (min max : Nat) : DrawsEnds rules pp (pp.bounded path min max) := by
  intro s o k
  unfold bounded
  refine .ite (fun _ => .malformed) fun _ => .ite (fun _ => drawsEnds_zeroLength hpp s o k) fun _ =>
    .ite (fun _ => ?_) fun _ => drawsEnds_positiveRange hpath min max s o k
  exact drawsEnds_withZero hpp (drawsEnds_positiveRange hpath 1 max) s o k

/-! ## Loops -/

/-- What is bound before the end of a loop is renamed is bound afterwards, but for the end. -/
theorem mem_vars_renamed {step s o : Variable} {D : VarSet} (hs : s ∈ D) (ho : o ∈ D)
    (hne : s ≠ o) : s ∈ Renaming.vars (OrdMap.singleton step o) D := by
  show s ∈ if D.contains o then OrdSet.insert step (D.filter _) else OrdSet.erase _ step
  rw [if_pos (OrdSet.contains_iff.2 ho), OrdSet.mem_insert, OrdSet.mem_filter]
  refine .inr ⟨hs, ?_⟩
  simp [Renaming.keeps, OrdMap.values, OrdMap.singleton, hne]

/-- A union may be fed back once the operators of its loop stand. -/
theorem sketches_closed {union known renamed unequal copy back : OperatorId} {D E J : VarSet}
    {r : Renaming} {e : Expression} {vars : VarSet} {bases : List OperatorId}
    (hunion : k.Stands union .union bases D) (hknown : k.Stands known .distinct [union] D)
    (hrenamed : k.Stands renamed (.replaceVar r) [known] E)
    (hunequal : k.Stands unequal (.ofCondition e) [renamed] E)
    (hjoin : k.Stands join .join [unequal, copy] J)
    (hback : k.Stands back (.projection vars) [join] D) (hread : k.ReadBy union known) :
    Sketches k (Draw.onGraph (Graph.connect back union 1 true)) fun k' _ =>
      k.Changes k' union ∧ (∀ x, k'.shapes x = k.shapes x) ∧
        ∀ i, k'.graph.Reads union i → k.graph.Reads union i ∨ i.source = back := by
  have hbehind : k.graph.Behind k.shapes union back := by
    refine ⟨(· ∈ [union, known, renamed, unequal, join, back]), by simp, by simp,
      fun y hy hne => ?_⟩
    simp only [List.mem_cons, List.not_mem_nil, or_false] at hy
    rcases hy with rfl | rfl | rfl | rfl | rfl | rfl
    · exact absurd rfl hne
    · exact hknown.waiting Kind.noConfusion (by simp)
    · exact hrenamed.waiting Kind.noConfusion (by simp)
    · exact hunequal.waiting Kind.noConfusion (by simp)
    · exact hjoin.waiting_join (by simp)
    · exact hback.waiting Kind.noConfusion (by simp)
  have hloopable : k.graph.Loopable k.shapes union known back D :=
    { union := hunion.operator
      shape := hunion.shape
      feeds := ⟨_, hback.operator, Kind.noConfusion⟩
      feeds_shape := hback.shape
      behind := hbehind
      reader := ⟨_, hknown.operator, by simp [Operator.kind, Operator.deduplicating]⟩
      reader_shape := by simp [hknown.shape]
      readers := hread }
  refine Sketches.onGraph ((Graph.wired_connect (.of_linked k.regular.linked) 1 true).mono
    fun _ g' hconnected => ?_)
  obtain ⟨-, -, hwired⟩ := hconnected
  obtain ⟨k', hgraph, hwiring, hshapes, hchanges, hreads⟩ := k.exists_looped hloopable hwired
  refine ⟨k', hgraph, hwiring, hchanges, fun x => by rw [hshapes], fun i hi => ?_⟩
  refine ((hreads union i).1 hi).imp_right ?_
  rintro ⟨-, rfl⟩
  rfl

/-- What removes the duplicates of a union has a known domain once the union is fed back. -/
theorem places_closed {known union back : OperatorId} {outs : List (OperatorId × VarSet)}
    {D : VarSet} {inputs : List OperatorId} (h : k₀.Places k ((back, D) :: outs))
    (hclosed : k.Changes k' union ∧ (∀ x, k'.shapes x = k.shapes x) ∧
      ∀ i, k'.graph.Reads union i → k.graph.Reads union i ∨ i.source = back)
    (hunion : k₀.graph.operator? union = none) (hknown : k₀.graph.operator? known = none)
    (hstands : k.Stands known .distinct inputs D) : k₀.Places k' [(known, D)] := by
  obtain ⟨hchanges, hshapes, hreads⟩ := hclosed
  refine ⟨h.beside.change hchanges hunion fun i hi => ?_, fun out hout => ?_, fun out hout => ?_⟩
  · refine (hreads i hi).imp_right fun hi => .inr ?_
    exact hi ▸ h.fresh (back, D) List.mem_cons_self
  · obtain rfl := List.mem_singleton.1 hout
    refine ⟨(hshapes known).trans hstands.shape, unlooped_of_ne fun op hop => ?_⟩
    obtain rfl := Option.some.inj ((hchanges.operators hstands.operator).symm.trans hop)
    exact Kind.noConfusion
  · obtain rfl := List.mem_singleton.1 hout
    exact hknown

theorem sketches_renamed {known : OperatorId} {outs : List (OperatorId × VarSet)} {r : Renaming}
    {D E : VarSet} (h : k₀.Places k outs) (hinput : (known, D) ∈ outs) (hE : E = r.vars D)
    (hknown : k.graph.operator? known = some .distinct) :
    Sketches k (above known (.replaceVar r)) fun k' id => k₀.Places k' ((id, E) :: outs) ∧
      k.Adds k' id (.replaceVar r) (· ∈ inputsFrom [known]) (some E) := by
  have hinputs : ∀ s ∈ [known], ∃ E, (s, E) ∈ outs := fun s hs =>
    ⟨D, List.mem_singleton.1 hs ▸ hinput⟩
  rw [above_eq_combine]
  refine (sketches_combine (some E) (Operator.drawable_of_isOrdinary rfl)
    (fun he => Kind.noConfusion he) (fun he => by simp [Operator.kind] at he)
    (fun _ s hs op hop => ?_) (h.live hinputs)
      fun E' hE' g id hreads => ?_).mono fun k' id hadds => ⟨h.adds hinputs hadds, hadds⟩
  · obtain rfl := List.mem_singleton.1 hs
    obtain rfl := Option.some.inj (hknown.symm.trans hop)
    simp [Operator.kind, Operator.deduplicating]
  · obtain rfl := Option.some.inj hE'
    refine (Graph.settled_of_ne Kind.noConfusion Kind.noConfusion).2
      ⟨by simp [Operator.kind, Operator.steady], fun i hi => ?_⟩
    obtain rfl : i = ⟨known, 0, false⟩ := by simpa [inputsFrom] using (hreads i).1 hi
    exact ⟨D, (h.offers _ hinput).shape, hE⟩

/-- What is known, with its object renamed to the subject of a step, and the step have the ends of
the loop between them. -/
theorem mem_unionOf_step {s o step v : Variable} {unequal copy : OperatorId}
    (hv : v ∈ pp.endpoints (.var s) (.var o)) : v ∈ OrdSet.unionOf Prod.snd
      ([(unequal, Renaming.vars (OrdMap.singleton step o) (pp.endpoints (.var s) (.var o)))] ++
        [(copy, pp.endpoints (.var step) (.var o))]) := by
  by_cases hvs : v = s ∧ s ≠ o
  · obtain ⟨rfl, hne⟩ := hvs
    refine OrdSet.mem_unionOf.2 ⟨_, List.mem_append_left _ List.mem_cons_self,
      mem_vars_renamed hv ?_ hne⟩
    exact mem_endpoints.2 (.inr (.inl rfl))
  · refine OrdSet.mem_unionOf.2 ⟨(copy, pp.endpoints (.var step) (.var o)), by simp,
      mem_endpoints.2 ?_⟩
    rcases mem_endpoints.1 hv with hv | hv | hv
    · obtain rfl := Item.var.inj hv
      exact .inr (.inl (congrArg Item.var (of_not_not fun hne => hvs ⟨rfl, hne⟩)))
    · exact .inr (.inl hv)
    · exact .inr (.inr hv)

/-- A loop ends in an operator that removes duplicates. -/
theorem sketches_loop (hpath : DrawsEnds rules pp path) (s o : Variable) :
    Sketches k (pp.loop path s o) fun k' id =>
      k.Places k' [(id, pp.endpoints (.var s) (.var o))] ∧
        k'.graph.operator? id = some .distinct := by
  unfold loop
  obtain ⟨D, hD⟩ : ∃ D, D = pp.endpoints (.var s) (.var o) := ⟨_, rfl⟩
  refine ((Places.nil k).next (hD ▸ hpath (.var s) (.var o))).bind fun k₁ base h₁ => ?_
  have hbase : ∀ x ∈ [base], (x, D) ∈ [(base, D)] := by simp
  refine (h₁.union hbase).bind fun k₂ union hstep => ?_
  obtain ⟨h₂, hunion⟩ := hstep
  refine (h₂.above .distinct rfl (by simp [Operator.kind]) List.mem_cons_self rfl).bind
    fun k₂' known hstep => ?_
  obtain ⟨h₃, hknown⟩ := hstep
  refine Sketches.freshVar.bind fun k₃ step hk => ?_
  subst hk
  obtain ⟨E, hE⟩ : ∃ E, E = Renaming.vars (OrdMap.singleton step o) D := ⟨_, rfl⟩
  refine (sketches_renamed h₃ List.mem_cons_self hE hknown.operator).bind
    fun k₄ renamed hstep => ?_
  obtain ⟨h₄, hrenamed⟩ := hstep
  refine (h₄.above (.ofCondition (.notEqual (.variable s) (.variable step))) rfl
    (by simp [Operator.kind, Operator.ofCondition]) List.mem_cons_self rfl).bind
    fun k₅ unequal hstep => ?_
  obtain ⟨h₅, hunequal⟩ := hstep
  rw [above_eq_combine]
  have hunequal₅ : k.Places k₅ [(unequal, E)] := h₅.sub (by simp)
  refine (Joining.start hunequal₅).bind fun k₆ join hstep => ?_
  obtain ⟨h₆, hjoin⟩ := hstep
  refine sketches_twice (h₆.finish (hpath (.var step) (.var o)) rfl)
    fun k₇ _ hstep => ?_
  obtain ⟨copy, h₇, hjoined, hapart⟩ := hstep
  obtain ⟨J, hJ⟩ : ∃ J, J = OrdSet.unionOf Prod.snd
    ([(unequal, E)] ++ [(copy, pp.endpoints (.var step) (.var o))]) := ⟨_, rfl⟩
  rw [← hJ] at h₇ hjoined
  have hends : ∀ v ∈ pp.endpoints (.var s) (.var o), v ∈ J := fun v hv =>
    hJ ▸ hE ▸ hD ▸ mem_unionOf_step hv
  refine (h₇.above (.projection (pp.endpoints (.var s) (.var o))) rfl
    (by simp [Operator.kind]) List.mem_cons_self (hD.trans (inter_endpoints hends))).bind
    fun k₈ back hstep => ?_
  obtain ⟨h₈, hback⟩ := hstep
  have hunion₃ := hknown.keeps.operators _ _ hunion.operator
  have hunion₄ := hrenamed.keeps.operators _ _ hunion₃
  have hunion₅ := hunequal.keeps.operators _ _ hunion₄
  have hunion₆ := hjoin.keeps.operators _ _ hunion₅
  have hread : k₈.ReadBy union known := by
    have h₃ := (hunion.readBy (t := known) fun s hs =>
      (h₁.live (fun s hs => ⟨D, hbase s hs⟩) s hs).1).adds hknown fun _ => rfl
    have h₄ := h₃.adds hrenamed fun h => absurd (List.mem_singleton.1 h) (hknown.ne hunion.operator)
    have h₅ := h₄.adds hunequal fun h => absurd (List.mem_singleton.1 h) (hrenamed.ne hunion₃)
    have h₆ := h₅.adds hjoin fun h => absurd (List.mem_singleton.1 h) (hunequal.ne hunion₄)
    refine (h₆.apart hapart ?_ (by simp [hunion₆])).adds hback fun h =>
      absurd (List.mem_singleton.1 h) (hjoin.ne hunion₅)
    rintro rfl
    cases hunion.operator.symm.trans k₂.regular.root
  -- what has been drawn for the loop still stands
  have hlater := hjoin.keeps.trans (hapart.toKeeps.trans hback.keeps)
  have hlater' := hrenamed.keeps.trans (hunequal.keeps.trans hlater)
  refine (sketches_closed (hunion.stands.mono (hknown.keeps.trans hlater'))
    (hknown.stands.mono hlater') (hrenamed.stands.mono (hunequal.keeps.trans hlater))
    (hunequal.stands.mono hlater) (hjoined.mono hback.keeps) hback.stands hread).bind
      fun k₉ _ hclosed => ?_
  have hstands := hknown.stands.mono hlater'
  exact .pure ⟨hD ▸ places_closed h₈ hclosed (h₂.fresh (union, D) List.mem_cons_self)
    (h₃.fresh (known, D) List.mem_cons_self) hstands, hclosed.1.operators hstands.operator⟩

/-- What has been drawn between two variables is restricted to two items by a filter and a
projection. -/
theorem sketches_restricted {equalities : List (Item × Item)} {s' o' : Variable}
    {core : OperatorId} {outs : List (OperatorId × VarSet)}
    (hconfines : Confines equalities s' o' s o) (h : k₀.Places k outs)
    (hcore : (core, pp.endpoints (.var s') (.var o')) ∈ outs) :
    Sketches k (do pp.project (← above core (.ruleFilter equalities)) s o) fun k' id =>
      k₀.Places k' [(id, pp.endpoints s o)] ∧ ∃ (k₁ : Sketch rules) (filter : OperatorId),
        k.Adds k₁ filter (.ruleFilter equalities) (· ∈ inputsFrom [core])
          (some (pp.endpoints (.var s') (.var o'))) ∧
        k₁.Adds k' id (.projection (pp.endpoints s o)) (· ∈ inputsFrom [filter])
          (some (pp.endpoints s o)) := by
  refine (h.above (.ruleFilter equalities) rfl (by simp [Operator.kind]) hcore rfl).bind
    fun k₁ filter hadded => ?_
  obtain ⟨h₁, hfilter⟩ := hadded
  have hends : ∀ v ∈ pp.endpoints s o, v ∈ pp.endpoints (.var s') (.var o') := fun v hv => by
    simp only [mem_endpoints, Item.var.injEq] at hv ⊢
    rcases hv with hv | hv | hv
    · exact .inl (hconfines.subject v hv)
    · exact or_assoc.1 (.inl (hconfines.object v hv))
    · exact .inr (.inr hv)
  refine (h₁.above (.projection (pp.endpoints s o)) rfl (by simp [Operator.kind])
    List.mem_cons_self (inter_endpoints hends)).mono
    fun k₂ id h => ⟨places_last h.1 rfl, k₁, filter, hfilter, h.2⟩

theorem drawsEnds_oneOrMore (hpath : DrawsEnds rules pp path) :
    DrawsEnds rules pp (pp.oneOrMore path) := by
  refine fun s o => closure_induction
    (C := fun s o draw => DrawsDomain rules draw (pp.endpoints s o))
    (fun v w _ => (sketches_loop hpath v w).mono fun _ _ h => h.1)
    (fun _ _ _ s o _ hconfines hcore k => ?_)
    (fun _ _ _ hf k => Sketches.freshVar.bind fun k₁ v hk => hk ▸ hf v k₁) 3 s o
    (fun h => absurd h (by decide))
  exact ((Places.nil k).next hcore).bind fun _ _ h =>
    (sketches_restricted hconfines h List.mem_cons_self).mono fun _ _ h => h.1

theorem drawsEnds_unbounded (hpp : pp.planner.ScansPatterns) (hpath : DrawsEnds rules pp path)
    (min : Nat) : DrawsEnds rules pp (pp.unbounded path min) := by
  intro s o
  unfold unbounded
  split
  · exact drawsEnds_withZero hpp (drawsEnds_oneOrMore hpath) s o
  · exact drawsEnds_oneOrMore hpath s o
  · next steps =>
    intro k
    refine sketches_row hpath (drawsEnds_oneOrMore hpath) _ s o fun k' join D outs h hD => ?_
    refine (places_project h List.mem_cons_self hD).bind fun k₁ projected h₁ => ?_
    exact (places_distinct h₁ List.mem_cons_self).mono fun _ _ h₂ => places_last h₂ rfl

end PathPlanner

/-- A path between two items ends in an operator whose only domain is made of the variables among
the items and that of the graph. -/
theorem Path.drawsEnds {rules : Bool} {pp : PathPlanner} (hpp : pp.planner.ScansPatterns) :
    (p : Path) → DrawsEnds rules pp (p.draw pp)
  | .predicate iri => fun s o k => by
      refine (PathPlanner.drawsDomain_scan hpp _ k).mono fun k' id h =>
        PathPlanner.places_last h (OrdSet.eq_of_mem_iff fun v => ?_)
      rw [PathPlanner.mem_endpoints]
      simp [TriplePattern.vars, TriplePattern.items, Item.mem_vars, or_assoc]
  | .inverse p => fun s o => pp.endpoints_comm s o ▸ p.drawsEnds hpp o s
  | .sequence p q => fun s o k => by
      unfold Path.draw
      refine Sketches.freshVar.bind fun k₁ middle hk => ?_
      subst hk
      refine ((Sketch.Places.nil k₁).next (p.drawsEnds hpp s (.var middle))).bind
        fun k₂ left h₂ => ?_
      refine (h₂.next (q.drawsEnds hpp (.var middle) o)).bind fun k₃ right h₃ => ?_
      have hparts : ∀ part ∈ [(left, pp.endpoints s (.var middle)),
          (right, pp.endpoints (.var middle) o)], part ∈ [(right, pp.endpoints (.var middle) o),
            (left, pp.endpoints s (.var middle))] := by simp
      refine (Sketch.Joining.of_placed (h₃.sub hparts)).bind fun k₄ join h₄ => ?_
      refine (PathPlanner.places_project h₄ List.mem_cons_self fun v hv => ?_).mono
        fun _ _ h₅ => PathPlanner.places_last h₅ rfl
      rw [OrdSet.mem_unionOf]
      simp only [List.mem_cons, List.not_mem_nil, or_false, exists_eq_or_imp, exists_eq_left,
        PathPlanner.mem_endpoints] at hv ⊢
      tauto
  | .alternative p q => fun s o k => by
      unfold Path.draw
      refine ((Sketch.Places.nil k).next (p.drawsEnds hpp s o)).bind fun k₁ left h₁ => ?_
      refine (h₁.next (q.drawsEnds hpp s o)).bind fun k₂ right h₂ => ?_
      refine h₂.pair.bind fun k₃ union h₃ => ?_
      refine (PathPlanner.places_project h₃ List.mem_cons_self fun v => id).bind
        fun k₄ projected h₄ => ?_
      exact (PathPlanner.places_distinct h₄ List.mem_cons_self).mono
        fun _ _ h₅ => PathPlanner.places_last h₅ rfl
  | .negatedSet members => PathPlanner.drawsEnds_negatedSet hpp members
  | .repetition p min (some max) => PathPlanner.drawsEnds_bounded hpp (p.drawsEnds hpp) min max
  | .repetition p min none => PathPlanner.drawsEnds_unbounded hpp (p.drawsEnds hpp) min
  | .oneOrMore p => PathPlanner.drawsEnds_oneOrMore (p.drawsEnds hpp)
  | .zeroOrMore p =>
      PathPlanner.drawsEnds_withZero hpp (PathPlanner.drawsEnds_oneOrMore (p.drawsEnds hpp))
  | .zeroOrOne p => PathPlanner.drawsEnds_withZero hpp (p.drawsEnds hpp)

end QuadAlgebra
