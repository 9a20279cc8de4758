import QuadAlgebra.Proofs.Relocation.Patterns
import QuadAlgebra.Proofs.Typing.Edits
import QuadAlgebra.Proofs.Updates.Heads

/-!
# Drawing updates

Every operation that is not a command amounts to a modification (`UpdateOperation.modification?`).
Its plan consists of changes and of a copy of the plan that the pattern of the modification has on
its own (`Modification.drawPattern`), such that all templates read what arrives at the first one
(`UpdateOperation.ends_draw`).
-/

namespace QuadAlgebra

/-! ## Modifications -/

namespace Modification

/-- The templates of the quads that are deleted, in the graph that is meant if they name none. -/
def deleted (m : Modification) : List QuadPattern := m.delete.map (·.within m.within)

/-- What is inserted, with the graph that the update works in. -/
def inserted (m : Modification) : List QuadPattern := m.insert.map (·.within m.within)

/-- The graph in which the pattern is matched, unless a dataset is given. -/
def active (m : Modification) : Option Item :=
  if m.dataset.isSome then none else m.within.map .term

/-- Plans the pattern of a modification on its own. The result shows all variables. -/
def drawPattern (p : Planner) (m : Modification) : Draw Unit := do
  m.pattern.draw p m.active (← Draw.addResult (.select []))

/-- Changes that delete and insert what a modification says. -/
structure MadeBy (m : Modification) (cs : List Change) : Prop where
  nonempty : cs ≠ []
  deletes : ∀ rows, (cs.flatMap fun c =>
    if c.inserting then [] else constructQuads c.template rows) = constructQuads m.deleted rows
  inserts : ∀ rows, (cs.flatMap fun c =>
    if c.inserting then constructQuads c.template rows else []) = constructQuads m.inserted rows

end Modification

/-- The modification that an operation amounts to, unless it is a command. -/
def UpdateOperation.modification? : UpdateOperation → Option Modification
  | .insertData quads => some ⟨none, [], quads, none, ⟨[]⟩⟩
  | .deleteData quads => some ⟨none, quads, [], none, ⟨[]⟩⟩
  | .deleteWhere quads => some ⟨none, quads, [], none, ⟨quads.map QuadPattern.toElement⟩⟩
  | .modify change => some change
  | .command _ => none

/-- Without a graph to work in a pattern stays as it is. -/
theorem QuadPattern.within_none (q : QuadPattern) : q.within none = q := by
  obtain ⟨graph, t⟩ := q
  cases graph <;> rfl

theorem QuadPattern.map_within_none (quads : List QuadPattern) :
    quads.map (·.within none) = quads :=
  (List.map_congr_left fun q _ => q.within_none).trans (List.map_id _)

/-- An empty template makes nothing. -/
theorem constructQuads_nil (rows : List Solution) : constructQuads [] rows = [] := by
  rw [constructQuads, List.flatMap_eq_nil_iff]
  exact fun _ _ => rfl

/-! ## The outside of a pattern -/

/-- The changes of an update stand above a pattern: all templates read what the target of the
pattern reads. -/
structure Site.Updates (s : Site) (h : Graph Plan) (heads : List (Nat × Change)) : Prop where
  result : h.operator? 1 = some (.result .update)
  results : ∀ (id : Nat) op, h.operator? id = some op → op.kind = .result → id = 1
  reads : h.inputs 1 = heads.map fun head => ⟨head.1, 0, false⟩
  change : ∀ head ∈ heads, h.operator? head.1 = some head.2.operator ∧
    h.inputs head.1 = [⟨head.1 + 1, 0, false⟩]
  template : ∀ head ∈ heads, h.operator? (head.1 + 1) = some (.construct head.2.template) ∧
    h.inputs (head.1 + 1) = h.inputs s.target
  outside : ∀ k, 1 ≠ s.place k
  change_outside : ∀ head ∈ heads, ∀ k, head.1 ≠ s.place k
  template_outside : ∀ head ∈ heads, head.1 + 1 = s.target ∨ ∀ k, head.1 + 1 ≠ s.place k

/-- Only the edges matter for what an update has drawn. -/
theorem Site.Updates.sameEdges {s : Site} {h h' : Graph Plan} {heads : List (Nat × Change)}
    (hu : s.Updates h heads) (hsame : h.SameEdges h') : s.Updates h' heads where
  result := by rw [hsame.operator?, hu.result]
  results id op hop := hu.results id op (hsame.operator? id ▸ hop)
  reads := by rw [hsame.inputs, hu.reads]
  change head hhead := by
    rw [hsame.operator?, hsame.inputs]
    exact hu.change head hhead
  template head hhead := by
    rw [hsame.operator?, hsame.inputs, hsame.inputs]
    exact hu.template head hhead
  outside := hu.outside
  change_outside := hu.change_outside
  template_outside := hu.template_outside

namespace Graph

variable {b : Graph Plan} {heads : List (Nat × Change)}

/-- The result reads the changes, in order. -/
theorem Headed.inputs_result (hb : b.Headed heads) :
    b.inputs 1 = heads.map fun head => ⟨head.1, 0, false⟩ := by
  refine (inputs_eq_map hb.nodup hb.reads fun x hx => ?_).trans List.map_map
  obtain ⟨head, hhead, rfl⟩ := List.mem_map.1 hx
  rw [edgesBetween, (hb.heads head hhead).succeeding]
  rfl

/-- The change of a head reads its template. -/
theorem HasHead.inputs_change {id : Nat} {c : Change} (h : b.HasHead id c) :
    b.inputs id = [⟨id + 1, 0, false⟩] := by
  refine inputs_eq_map (List.nodup_singleton _) h.preceding fun x hx => ?_
  obtain rfl := List.mem_singleton.1 hx
  rw [edgesBetween, h.succeeding_template]
  simp

/-- A change is fed, a template is not. -/
theorem HasHead.ne_template {id id' : Nat} {c c' : Change} (h : b.HasHead id c)
    (h' : b.HasHead id' c') : id ≠ id' + 1 := by
  intro he
  have hfree := h'.free
  rw [← he, h.preceding] at hfree
  cases hfree

end Graph

section Sharing

variable {b : Graph Plan} {first : Nat × Change} {rest : List (Nat × Change)}
  (hb : b.Headed (first :: rest))

/-- The site below the first template. -/
def Graph.Headed.firstSite : Site := hb.site (hb.heads first List.mem_cons_self)

/-- The producers that the target of a site reads. -/
def Site.sources (s : Site) (h : Graph Plan) : List Nat := (h.inputs s.target).map Input.source

variable {g h : Graph Plan} (hh : hb.firstSite.Holds g h)

/-- Templates other than the first one stand outside of the pattern. -/
theorem template_outside {head : Nat × Change} (hhead : head ∈ rest) (k : Nat) :
    head.1 + 1 ≠ hb.firstSite.place k := by
  have hhas := hb.heads head (List.mem_cons_of_mem _ hhead)
  refine Site.outside_of_lt_first hhas.lt (Nat.succ_ne_zero _) (fun he => ?_) k
  have hsame : head.1 = first.1 := Nat.succ.inj he
  have hnodup := hb.nodup
  rw [List.map_cons, List.nodup_cons] at hnodup
  exact hnodup.1 (hsame ▸ List.mem_map_of_mem hhead)

include hh

/-- A template reads what the pattern delivers to it. -/
theorem inputs_target : h.inputs hb.firstSite.target =
    (hb.firstSite.sources h).map fun x => ⟨x, 0, false⟩ := by
  have hin : h.inputs hb.firstSite.target = (g.inputs 1).map hb.firstSite.placeInput :=
    hh.inputs_place 1
  rw [Site.sources, hin, List.map_map, List.map_map]
  refine List.map_congr_left fun i hi => ?_
  obtain ⟨hoperand, hfeedback⟩ := hh.into_result _ _ (hh.linked.mem_inputs.1 hi) rfl
  obtain ⟨source, operand, feedback⟩ := i
  obtain rfl : operand = 0 := hoperand
  obtain rfl : feedback = false := hfeedback
  rfl

/-- Each source of a template feeds it once. -/
theorem nodup_sources : (hb.firstSite.sources h).Nodup := by
  have hin : h.inputs hb.firstSite.target = (g.inputs 1).map hb.firstSite.placeInput :=
    hh.inputs_place 1
  have hnodup : (h.inputs hb.firstSite.target).Nodup := by
    rw [hin]
    refine (Graph.Tidy.nodup_inputs hh.nodup).map fun i j hij => ?_
    obtain ⟨source, operand, feedback⟩ := i
    obtain ⟨source', operand', feedback'⟩ := j
    simp only [Site.placeInput, Input.mk.injEq] at hij
    obtain ⟨hsource, rfl, rfl⟩ := hij
    rw [Site.place_injective hsource]
  rw [inputs_target hb hh] at hnodup
  exact hnodup.of_map _

/-- The sources of a template have been drawn for the pattern. -/
theorem mem_sources {x : Nat} (hx : x ∈ hb.firstSite.sources h) :
    ∃ k, x = hb.firstSite.place k ∧ h.contains x = true := by
  obtain ⟨i, hi, rfl⟩ := List.mem_map.1 hx
  have hlive := Graph.mem_ids.1 (Graph.source_mem_ids hi)
  have hin : h.inputs hb.firstSite.target = (g.inputs 1).map hb.firstSite.placeInput :=
    hh.inputs_place 1
  rw [hin] at hi
  obtain ⟨j, -, rfl⟩ := List.mem_map.1 hi
  exact ⟨j.source, rfl, hlive⟩

/-- The other templates are not fed yet. -/
theorem free_templates : h.Free (rest.map fun head => head.1 + 1) where
  nodup := by
    have hnodup := hb.nodup
    rw [List.map_cons, List.nodup_cons] at hnodup
    have hsucc := hnodup.2.map Nat.succ_injective
    rwa [List.map_map] at hsucc
  contains t ht := by
    obtain ⟨head, hhead, rfl⟩ := List.mem_map.1 ht
    have hhas := hb.heads head (List.mem_cons_of_mem _ hhead)
    rw [Graph.contains, ← Option.isSome_map (f := Node.operator)]
    have hop := hh.operator?_old (head.1 + 1) hhas.lt
    rw [Graph.operator?] at hop
    rw [hop]
    change (b.operator? (head.1 + 1)).isSome = true
    rw [hhas.template]
    rfl
  preceding t ht := by
    obtain ⟨head, hhead, rfl⟩ := List.mem_map.1 ht
    have hhas := hb.heads head (List.mem_cons_of_mem _ hhead)
    have hout := template_outside hb hhead 1
    rw [hh.preceding_old _ hhas.lt hout]
    exact hhas.free

/-- What a pattern feeds to the first template is shared with the others. -/
theorem updates_sharing : hb.firstSite.Updates
    (h.sharing (rest.map fun head => head.1 + 1) (hb.firstSite.sources h)) (first :: rest) := by
  have hlive : ∀ x ∈ hb.firstSite.sources h, h.contains x = true := fun x hx =>
    (mem_sources hb hh hx).choose_spec.2
  have hfree := free_templates hb hh
  have hlt : ∀ head ∈ first :: rest, head.1 + 1 < hb.firstSite.first := fun head hhead =>
    (hb.heads head hhead).lt
  have hchange : ∀ head ∈ first :: rest, ∀ head' ∈ first :: rest, head.1 ≠ head'.1 + 1 :=
    fun head hhead head' hhead' => (hb.heads head hhead).ne_template (hb.heads head' hhead')
  -- changes are not among the templates that share what the first one reads
  have hnot : ∀ head ∈ first :: rest, head.1 ∉ rest.map fun head => head.1 + 1 := by
    intro head hhead hmem
    obtain ⟨head', hhead', he⟩ := List.mem_map.1 hmem
    exact hchange head hhead head' (List.mem_cons_of_mem _ hhead') he.symm
  have hone : (1 : Nat) ∉ rest.map fun head => head.1 + 1 := by
    intro hmem
    obtain ⟨head, hhead, he⟩ := List.mem_map.1 hmem
    have htwo := (hb.heads head (List.mem_cons_of_mem _ hhead)).two_le
    omega
  have hone_lt : 1 < hb.firstSite.first := hb.two_le
  have hone_ne : 1 ≠ hb.firstSite.target := by
    have htwo := (hb.heads first List.mem_cons_self).two_le
    exact fun he : 1 = first.1 + 1 => by omega
  have hfirst : hb.firstSite.target ∉ rest.map fun head => head.1 + 1 := by
    intro hmem
    obtain ⟨head, hhead, he⟩ := List.mem_map.1 hmem
    exact template_outside hb hhead 1 he
  refine ⟨?_, fun id op hop hkind => ?_, ?_, fun head hhead => ⟨?_, ?_⟩,
    fun head hhead => ⟨?_, ?_⟩, fun k => ?_, fun head hhead k => ?_, fun head hhead => ?_⟩
  · rw [Graph.operator?_sharing]
    exact (hh.operator?_old 1 hone_lt).trans hb.result
  · rw [Graph.operator?_sharing] at hop
    by_cases hplace : ∃ k, id = hb.firstSite.place k
    · obtain ⟨k, rfl⟩ := hplace
      by_cases hk : k = 1
      · subst hk
        have htemplate := (hh.operator?_old _ (hlt first List.mem_cons_self)).trans
          (hb.heads first List.mem_cons_self).template
        obtain rfl := Option.some.inj (hop.symm.trans htemplate)
        cases hkind
      · rw [hh.operator? k hk] at hop
        exact absurd ((hh.result_iff k op hop).1 hkind) hk
    · obtain ⟨hid, -, -⟩ := Site.lt_first_of_outside fun k hk => hplace ⟨k, hk⟩
      rw [hh.operator?_old id hid] at hop
      exact hb.results id op hop hkind
  · rw [Graph.inputs_sharing_of_not_mem hlive hfree hone, hh.inputs_old hone_lt hone_ne]
    exact hb.inputs_result
  · rw [Graph.operator?_sharing]
    exact (hh.operator?_old _ (Nat.lt_of_succ_lt (hlt head hhead))).trans
      (hb.heads head hhead).change
  · rw [Graph.inputs_sharing_of_not_mem hlive hfree (hnot head hhead),
      hh.inputs_old (Nat.lt_of_succ_lt (hlt head hhead))
        (hchange head hhead first List.mem_cons_self)]
    exact (hb.heads head hhead).inputs_change
  · rw [Graph.operator?_sharing]
    exact (hh.operator?_old _ (hlt head hhead)).trans (hb.heads head hhead).template
  · rcases List.mem_cons.1 hhead with rfl | hhead
    · rfl
    · rw [Graph.inputs_sharing_of_mem hlive hfree hh.linked' (nodup_sources hb hh)
        (List.mem_map_of_mem hhead), Graph.inputs_sharing_of_not_mem hlive hfree hfirst,
        ← inputs_target hb hh]
  · exact Site.outside_of_lt_first hone_lt Nat.one_ne_zero hone_ne k
  · exact Site.outside_of_lt_first (Nat.lt_of_succ_lt (hlt head hhead))
      (Nat.ne_of_gt (Nat.lt_of_lt_of_le Nat.zero_lt_two (hb.heads head hhead).two_le))
      (hchange head hhead first List.mem_cons_self) k
  · rcases List.mem_cons.1 hhead with rfl | hhead
    · exact .inl rfl
    · exact .inr (template_outside hb hhead)

end Sharing

/-! ## Single steps -/

section Steps

variable {d : Draft} {t k : Nat}

/-- A new edge is drawn between operators that are there. -/
theorem connect_runOn_new {x : Nat} (hx : d.graph.contains x = true)
    (ht : d.graph.contains t = true) (hnew : ⟨t, k, false⟩ ∉ d.graph.succeeding x) :
    (Draw.connect x t k).runOn d = (.ok (), d.withEdge x ⟨t, k, false⟩) := by
  obtain ⟨n, hn⟩ := Option.isSome_iff_exists.1 hx
  have hnew' : ¬ n.succeeding.contains ⟨t, k, false⟩ = true := by
    rw [List.contains_iff_mem]
    rwa [Graph.succeeding, hn] at hnew
  rw [Draw.connect, Draw.onGraph, Edit.runOn_within, Draw.connect_runOn, if_pos ht, hn]
  dsimp only
  rw [if_neg hnew']
  rfl

/-- An operator is attached under the next number. -/
theorem attach_runOn (ht : d.graph.contains t = true) (op : Operator Plan) :
    ((⟨t, k⟩ : Cursor).attach op).runOn d =
      (.ok ⟨d.size, 0⟩, (d.withOperator op).withEdge d.size ⟨t, k, false⟩) := by
  have hnew : ⟨t, k, false⟩ ∉ (d.withOperator op).graph.succeeding d.size := by
    change _ ∉ (d.graph.withOperator op).succeeding d.graph.slots.length
    rw [Graph.succeeding_withOperator, Graph.succeeding, Graph.node?_eq_none (Nat.le_refl _)]
    exact List.not_mem_nil
  rw [Cursor.attach, Edit.runOn_bind, Draw.add_runOn]
  dsimp only
  rw [Edit.runOn_bind, connect_runOn_new ((Graph.contains_withOperator _).2 (.inl rfl))
    ((Graph.contains_withOperator _).2 (.inr ht)) hnew]
  rfl

/-- A change is attached to the result. -/
theorem attachChange_runOn {heads : List (Nat × Change)} (h : d.graph.Headed heads) (c : Change) :
    (Planner.attachChange ⟨1, 0⟩ c.operator c.template).runOn d =
      (.ok ⟨d.size + 1, 0⟩, { d with graph := d.graph.withChange c }) := by
  have hone : d.graph.contains 1 = true := (h.live 1).2 h.two_le
  rw [Planner.attachChange, Edit.runOn_bind, attach_runOn hone]
  dsimp only
  rw [attach_runOn]
  · refine Prod.ext (congrArg (fun n => Except.ok (⟨n, 0⟩ : Cursor)) ?_) ?_
    · rw [Draft.size_withEdge, Draft.size_withOperator]
    · simp only [Draft.withEdge, Draft.withOperator, Draft.size, Graph.withChange,
        Graph.length_withEdge, Graph.length_withOperator]
  · exact (Graph.contains_withEdge _).trans (Graph.contains_first h.live h.two_le c).1

/-- Some producers feed an operator that reads none of them so far. -/
theorem feeds_runOn {l : List Nat} (hl : ∀ x ∈ l, d.graph.contains x = true) (hnodup : l.Nodup)
    (ht : d.graph.contains t = true) (hnew : ∀ x ∈ l, ⟨t, 0, false⟩ ∉ d.graph.succeeding x) :
    (l.forM (⟨t, 0⟩ : Cursor).feed).runOn d =
      (.ok (), { d with graph := d.graph.reading t l }) := by
  induction l generalizing d with
  | nil => rfl
  | cons y rest ih =>
      obtain ⟨hy, hnodup⟩ := List.nodup_cons.1 hnodup
      rw [List.forM_eq_forM, List.forM_cons, Edit.runOn_bind, Cursor.feed,
        connect_runOn_new (hl y List.mem_cons_self) ht (hnew y List.mem_cons_self)]
      dsimp only
      refine (ih (fun x hx => ?_) hnodup ?_ fun x hx => ?_).trans rfl
      · exact (Graph.contains_withEdge x).trans (hl x (List.mem_cons_of_mem _ hx))
      · exact (Graph.contains_withEdge t).trans ht
      · change _ ∉ (d.graph.withEdge y ⟨t, 0, false⟩).succeeding x
        rw [Graph.succeeding_withEdge (hl y List.mem_cons_self),
          if_neg fun he : x = y => hy (he ▸ hx)]
        exact hnew x (List.mem_cons_of_mem _ hx)

/-- The inputs of one template are shared with the others, one template after the other. -/
theorem shares_runOn {ts l : List Nat} (hl : ∀ x ∈ l, d.graph.contains x = true)
    (hnodup : l.Nodup) (hfree : d.graph.Free ts) (hlinked : d.graph.Linked) :
    ((ts.map fun t => (⟨t, 0⟩ : Cursor)).forM fun c => l.forM c.feed).runOn d =
      (.ok (), { d with graph := d.graph.sharing ts l }) := by
  induction ts generalizing d with
  | nil => rfl
  | cons t rest ih =>
      have ht := hfree.contains t List.mem_cons_self
      have hnew : ∀ x ∈ l, ⟨t, 0, false⟩ ∉ d.graph.succeeding x := by
        intro x _ hmem
        have hpreceding := (hlinked x t).2 ⟨_, hmem, rfl⟩
        rw [hfree.preceding t List.mem_cons_self] at hpreceding
        cases hpreceding
      rw [List.map_cons, List.forM_eq_forM, List.forM_cons, Edit.runOn_bind,
        feeds_runOn hl hnodup ht hnew]
      dsimp only
      refine (ih (fun x hx => ?_) (hfree.tail hl) (hlinked.reading hl ht)).trans rfl
      exact (Graph.contains_reading x).trans (hl x hx)

end Steps

/-! ## Drawing below the changes -/

/-- What is drawn for a modification: changes that make it, above a copy of the plan that its
pattern has on its own. -/
structure Modification.DrawnAs (p : Planner) (m : Modification) (d : Draft) (E : Graph Plan)
    (s : Site) (own : Draft) (heads : List (Nat × Change)) : Prop where
  own_runOn : (m.drawPattern p).runOn d = (.ok (), own)
  own_result : own.graph.operator? 1 = some (.result (.select []))
  own_results : ∀ (id : Nat) op, own.graph.operator? id = some op → (op.kind = .result ↔ id = 1)
  copies : s.Copies own.graph E
  updates : s.Updates E heads
  madeBy : m.MadeBy (heads.map Prod.snd)

/-- A draft that consists of some changes and has handed out no numbers since a given one. -/
structure Draft.ChangesOn (base d : Draft) (heads : List (Nat × Change)) : Prop where
  headed : d.graph.Headed heads
  nextVar : d.nextVar = base.nextVar
  nextSlot : d.nextSlot = base.nextSlot

variable {p : Planner} {m : Modification} {base d : Draft} {heads : List (Nat × Change)}

/-- The pattern of an update is drawn below the template like a selection of its own. -/
theorem drawPattern_runOn (hbase : base.graph = .empty) : (m.drawPattern p).runOn base =
    (m.pattern.draw p m.active ⟨1, 0⟩).runOn (base.withOperator (.result (.select []))) := by
  have hsize : base.size = 1 := by rw [Draft.size, hbase]; rfl
  rw [Modification.drawPattern, Edit.runOn_bind, Draw.addResult, Edit.runOn_bind, Draw.add_runOn,
    hsize]
  rfl

/-- The pattern feeds the template of the first change, and all others share what it feeds. -/
theorem ends_drawBelow (hbase : base.graph = .empty) {first : Nat × Change}
    {rest : List (Nat × Change)} (hd : base.ChangesOn d (first :: rest))
    (hmade : m.MadeBy ((first :: rest).map Prod.snd)) : (do
      m.pattern.draw p m.active ⟨first.1 + 1, 0⟩
      Draw.shareInputs ⟨first.1 + 1, 0⟩
        (rest.map fun head : Nat × Change => ⟨head.1 + 1, 0⟩)).Ends d fun _ e =>
        ∃ s own heads, m.DrawnAs p base e.graph s own heads := by
  intro _ e hrun
  obtain ⟨_, d₁, hrun, hshare⟩ := Edit.runOn_bind_eq_ok.1 hrun
  have hb := hd.headed
  have hcarries : hb.firstSite.Carries (base.withOperator (.result (.select []))) d := by
    refine ⟨?_, hd.nextVar.symm, hd.nextSlot.symm⟩
    change hb.firstSite.Holds (base.graph.withOperator _) hb.firstSite.base
    rw [hbase]
    exact hb.firstSite.holds_base
  obtain ⟨_, own, hown, -, hcarries⟩ := m.pattern.mirrors_draw p m.active ⟨1, 0⟩ ⟨first.1 + 1, 0⟩
    ⟨rfl, rfl, .inr ⟨rfl, rfl⟩⟩ _ _ hcarries _ _ hrun
  have hh := hcarries.holds
  have hsources : (hb.firstSite.sources d₁.graph) = d₁.graph.operand (first.1 + 1) 0 := by
    have hinputs := inputs_target hb hh
    change d₁.graph.inputs (first.1 + 1) = _ at hinputs
    rw [Graph.operand, hinputs, List.filter_eq_self.2, List.map_map]
    · exact (List.map_id _).symm
    · intro i hi
      obtain ⟨x, -, rfl⟩ := List.mem_map.1 hi
      rfl
  rw [Draw.shareInputs, Edit.runOn_bind, Edit.runOn_get] at hshare
  dsimp only at hshare
  have hlive : ∀ x ∈ hb.firstSite.sources d₁.graph, d₁.graph.contains x = true := fun x hx =>
    (mem_sources hb hh hx).choose_spec.2
  have hcursors : rest.map (fun head => (⟨head.1 + 1, 0⟩ : Cursor)) =
      (rest.map fun head => head.1 + 1).map fun t => ⟨t, 0⟩ := by
    rw [List.map_map]
    rfl
  rw [← hsources, hcursors, shares_runOn hlive (nodup_sources hb hh) (free_templates hb hh)
    hh.linked'] at hshare
  obtain ⟨-, rfl⟩ := Prod.mk.inj hshare
  refine ⟨hb.firstSite, own, first :: rest, (drawPattern_runOn hbase).trans hown, hh.result,
    hh.result_iff, ?_, updates_sharing hb hh, hmade⟩
  refine hh.copies.sharing (fun x hx => mem_sources hb hh hx) fun t ht => ?_
  refine ⟨(free_templates hb hh).contains t ht, fun k => ?_⟩
  obtain ⟨head, hhead, rfl⟩ := List.mem_map.1 ht
  exact template_outside hb hhead k

/-- With one change there is nothing to share. -/
theorem ends_drawBelow_one (hbase : base.graph = .empty) {first : Nat × Change}
    (hd : base.ChangesOn d [first]) (hmade : m.MadeBy [first.2]) :
    (m.pattern.draw p m.active ⟨first.1 + 1, 0⟩).Ends d fun _ e =>
      ∃ s own heads, m.DrawnAs p base e.graph s own heads :=
  fun _ e hrun => ends_drawBelow hbase hd hmade ⟨⟩ e
    (Edit.runOn_bind_eq_ok.2 ⟨_, e, hrun, rfl⟩)

/-! ## Checks -/

/-- A check that changes nothing. -/
def Draw.Quiet (check : Draw Unit) : Prop := ∀ d, check.Ends d fun _ d' => d' = d

theorem Draw.quiet_malformed (cause : Malformed) : Draw.Quiet (Draw.malformed cause) :=
  fun _ => Edit.ends_throw

theorem Draw.quiet_pure : Draw.Quiet (pure ()) := fun _ => Edit.ends_pure.2 rfl

/-- A check leaves the draft to what comes next. -/
theorem Draw.Quiet.bind {α : Type} {check : Draw Unit} {next : Unit → Draw α}
    {post : α → Draft → Prop} (hcheck : Draw.Quiet check) (hnext : (next ()).Ends d post) :
    (check >>= next).Ends d post :=
  (hcheck d).bind fun _ _ h => h ▸ hnext

/-- A check that may be left out. -/
theorem Draw.Quiet.optionally {α : Type} {cond : Prop} [Decidable cond] {check : Draw Unit}
    {next : Unit → Draw α} {post : α → Draft → Prop} (hcheck : Draw.Quiet check)
    (hnext : (next ()).Ends d post) :
    (if cond then check >>= next else next ()).Ends d post :=
  Edit.ends_ite (fun _ => hcheck.bind hnext) fun _ => hnext

theorem quiet_require (enabled : Bool) (feature : String) :
    Draw.Quiet (Planner.require enabled feature) := by
  unfold Planner.require
  split
  · exact Draw.quiet_pure
  · exact fun _ => Edit.ends_throw

theorem quiet_requireTemplates (template : List QuadPattern) :
    Draw.Quiet (p.requireTemplates template) := by
  unfold Planner.requireTemplates
  split
  · exact quiet_require _ _
  · exact Draw.quiet_pure

theorem quiet_checkDeletion (template : List QuadPattern) :
    Draw.Quiet (checkDeletion template) := by
  unfold checkDeletion
  split
  · exact Draw.quiet_malformed _
  · exact Draw.quiet_pure

theorem quiet_checkData (inserting : Bool) (quads : List QuadPattern) :
    Draw.Quiet (checkData inserting quads) := by
  intro d
  refine (Edit.ends_forM (· = ·) fun q _ d₁ _ => ?_).mono fun _ _ h => h.symm
  refine (Draw.quiet_malformed _).optionally ?_
  exact Edit.ends_ite (fun _ => Edit.ends_throw) fun _ => Edit.ends_pure.2 rfl

/-! ## Operations -/

/-- An update starts with its result. -/
theorem ends_addResult_update (hbase : base.graph = .empty) :
    (Draw.addResult .update).Ends base fun c d => c = ⟨1, 0⟩ ∧ base.ChangesOn d [] := by
  intro c d hrun
  rw [Draw.addResult, Edit.runOn_bind, Draw.add_runOn] at hrun
  obtain ⟨hc, rfl⟩ := Prod.mk.inj hrun
  obtain rfl := Except.ok.inj hc
  have hsize : base.size = 1 := by rw [Draft.size, hbase]; rfl
  refine ⟨by rw [hsize], ?_, rfl, rfl⟩
  change (base.graph.withOperator (.result .update)).Headed []
  rw [hbase]
  exact Graph.Headed.start

/-- A change is attached after those that are there. -/
theorem ends_attachChange_headed (hd : base.ChangesOn d heads) (c : Change) :
    (Planner.attachChange ⟨1, 0⟩ c.operator c.template).Ends d fun cursor d' =>
      cursor = ⟨d.size + 1, 0⟩ ∧ base.ChangesOn d' (heads ++ [(d.size, c)]) := by
  intro cursor d' hrun
  rw [attachChange_runOn hd.headed] at hrun
  obtain ⟨hcursor, rfl⟩ := Prod.mk.inj hrun
  exact ⟨(Except.ok.inj hcursor).symm, hd.headed.withChange c, hd.nextVar, hd.nextSlot⟩

/-- A change is attached unless its template is empty. -/
theorem ends_attachChange_unless {c : Change} {next : List Cursor → Draw Unit}
    {post : Unit → Draft → Prop} (hd : base.ChangesOn d heads)
    (hnext : ∀ new d', base.ChangesOn d' (heads ++ new) →
      new.map Prod.snd = (if c.template.isEmpty then [] else [c]) →
      (next (new.map fun head => ⟨head.1 + 1, 0⟩)).Ends d' post) :
    (if c.template.isEmpty then do
        let cs ← pure []
        next cs
      else do
        let c' ← Planner.attachChange ⟨1, 0⟩ c.operator c.template
        let cs ← pure [c']
        next cs).Ends d post := by
  split
  · next hempty =>
    exact Edit.ends_bind.2 (Edit.ends_pure.2
      (hnext [] d (by rwa [List.append_nil]) (by rw [if_pos hempty]; rfl)))
  · next hempty =>
    refine (ends_attachChange_headed hd c).bind fun cursor d' ⟨hcursor, hd'⟩ => ?_
    subst hcursor
    exact Edit.ends_bind.2 (Edit.ends_pure.2
      (hnext [(d.size, c)] d' hd' (by rw [if_neg hempty]; rfl)))

section OneChange

variable {template : List QuadPattern} {pattern : Group} {clause : Option DatasetClause}

theorem Modification.madeBy_insert :
    Modification.MadeBy ⟨none, [], template, clause, pattern⟩ [⟨true, template⟩] :=
  ⟨List.cons_ne_nil _ _, fun rows => (constructQuads_nil rows).symm, fun rows =>
    (List.append_nil _).trans
      (congrArg (constructQuads · rows) (QuadPattern.map_within_none template).symm)⟩

/-- A deletion alone is made by one change. -/
theorem Modification.madeBy_delete :
    Modification.MadeBy ⟨none, template, [], clause, pattern⟩ [⟨false, template⟩] :=
  ⟨List.cons_ne_nil _ _, fun rows => (List.append_nil _).trans
      (congrArg (constructQuads · rows) (QuadPattern.map_within_none template).symm),
    fun rows => (constructQuads_nil rows).symm⟩

end OneChange

/-- A modification is made by a change for each of its templates that is not empty. -/
theorem Modification.madeBy_changes {cs : List Change} (hne : cs ≠ [])
    (hcs : cs = (if m.deleted.isEmpty then [] else [⟨false, m.deleted⟩]) ++
      if m.inserted.isEmpty then [] else [⟨true, m.inserted⟩]) : m.MadeBy cs := by
  refine ⟨hne, fun rows => ?_, fun rows => ?_⟩
  · subst hcs
    cases hdeleted : m.deleted <;> cases hinserted : m.inserted <;> simp [constructQuads_nil]
  · subst hcs
    cases hdeleted : m.deleted <;> cases hinserted : m.inserted <;> simp [constructQuads_nil]

/-- Data is drawn as a change above a probe. -/
theorem ends_drawData (hbase : base.graph = .empty) (inserting : Bool) (quads : List QuadPattern)
    (hmade : Modification.MadeBy m [⟨inserting, quads⟩]) (hpattern : m.pattern = ⟨[]⟩)
    (hactive : m.active = none) :
    (drawData p inserting quads).Ends base fun _ e =>
      ∃ s own heads, m.DrawnAs p base e.graph s own heads := by
  refine (ends_addResult_update hbase).bind fun result d₁ ⟨hresult, h₁⟩ => ?_
  subst hresult
  refine (quiet_checkData inserting quads).bind ((quiet_requireTemplates quads).bind ?_)
  refine (ends_attachChange_headed h₁ ⟨inserting, quads⟩).bind fun cursor d₂ ⟨hcursor, h₂⟩ => ?_
  subst hcursor
  have hbelow := ends_drawBelow_one (p := p) hbase h₂ hmade
  rw [hpattern, hactive] at hbelow
  exact hbelow

/-- A modification is drawn as the changes of its templates above its pattern. -/
theorem Modification.ends_draw (hbase : base.graph = .empty) :
    (m.draw p).Ends base fun _ e => ∃ s own heads, m.DrawnAs p base e.graph s own heads := by
  unfold Modification.draw
  dsimp only
  refine (quiet_checkDeletion _).bind ((quiet_require _ _).optionally ?_)
  refine (ends_addResult_update hbase).bind fun result d₁ ⟨hresult, h₁⟩ => ?_
  subst hresult
  refine (quiet_requireTemplates _).bind ((quiet_requireTemplates _).bind ?_)
  refine ends_attachChange_unless (c := ⟨false, m.deleted⟩) h₁ fun deleting d₂ h₂ hdel => ?_
  refine ends_attachChange_unless (c := ⟨true, m.inserted⟩) h₂ fun inserting d₃ h₃ hins => ?_
  rw [List.nil_append] at h₃
  have hchanges : (deleting ++ inserting).map Prod.snd =
      (if m.deleted.isEmpty then [] else [⟨false, m.deleted⟩]) ++
        if m.inserted.isEmpty then [] else [⟨true, m.inserted⟩] := by
    rw [List.map_append, hdel, hins]
  rw [← List.map_append]
  cases hall : deleting ++ inserting with
  | nil => exact Edit.ends_throw
  | cons first rest =>
      rw [hall] at h₃ hchanges
      exact ends_drawBelow hbase h₃
        (Modification.madeBy_changes (List.cons_ne_nil _ _) hchanges)

/-- An operation that amounts to a modification is drawn as such. -/
theorem UpdateOperation.ends_draw {op : UpdateOperation} (hm : op.modification? = some m)
    (hbase : base.graph = .empty) :
    (op.draw p).Ends base fun _ e => ∃ s own heads, m.DrawnAs p base e.graph s own heads := by
  cases op with
  | insertData quads =>
      obtain rfl := Option.some.inj hm
      exact ends_drawData hbase true quads Modification.madeBy_insert rfl rfl
  | deleteData quads =>
      obtain rfl := Option.some.inj hm
      exact ends_drawData hbase false quads Modification.madeBy_delete rfl rfl
  | deleteWhere quads =>
      obtain rfl := Option.some.inj hm
      refine (ends_addResult_update hbase).bind fun result d₁ ⟨hresult, h₁⟩ => ?_
      subst hresult
      refine (quiet_checkDeletion quads).bind ((quiet_requireTemplates quads).bind ?_)
      refine (ends_attachChange_headed h₁ ⟨false, quads⟩).bind fun cursor d₂ ⟨hcursor, h₂⟩ => ?_
      subst hcursor
      have hmade : Modification.MadeBy ⟨none, quads, [], none, ⟨quads.map QuadPattern.toElement⟩⟩
          [⟨false, quads⟩] := Modification.madeBy_delete
      exact ends_drawBelow_one hbase h₂ hmade
  | modify change =>
      obtain rfl := Option.some.inj hm
      exact Modification.ends_draw hbase
  | command c => cases hm

end QuadAlgebra
