import QuadAlgebra.Proofs.Optimization.Steps

/-!
# Edits that succeed

`edit.Runs s post` says that the edit does not fail in the state `s`, and that what it returns and
the state that it leaves satisfy `post`. The single steps of rules succeed on operators that are
there; each lemma describes the graph that they leave (`Graph.Wired`). A graph has variable sets
if its forward edges ascend some rank (`Reshape.runs_refresh`).
-/

namespace QuadAlgebra

namespace Edit

variable {σ τ α β : Type}

/-- The edit succeeds, with an outcome as described. -/
def Runs (edit : Edit σ α) (s : σ) (post : α → σ → Prop) : Prop :=
  ∃ a s', edit.runOn s = (.ok a, s') ∧ post a s'

variable {edit : Edit σ α} {s : σ} {post post' : α → σ → Prop}

/-- Less may be said of how an edit ends. -/
theorem Runs.mono (h : edit.Runs s post) (hpost : ∀ a s', post a s' → post' a s') :
    edit.Runs s post' := by
  obtain ⟨a, s', hrun, ha⟩ := h
  exact ⟨a, s', hrun, hpost a s' ha⟩

/-- What holds of every outcome holds of the one that there is. -/
theorem Ends.runs (h : edit.Ends s post) (hruns : edit.Runs s post') :
    edit.Runs s fun a s' => post a s' ∧ post' a s' := by
  obtain ⟨a, s', hrun, ha⟩ := hruns
  exact ⟨a, s', hrun, h a s' hrun, ha⟩

/-- What has been decided is returned. -/
theorem runs_pure {a : α} {post : α → σ → Prop} : (pure a : Edit σ α).Runs s post ↔ post a s := by
  constructor
  · rintro ⟨b, s', hrun, h⟩
    obtain ⟨hb, rfl⟩ := Prod.mk.inj hrun
    obtain rfl := Except.ok.inj hb
    exact h
  · exact fun h => ⟨a, s, rfl, h⟩

/-- Two edits in a row succeed if the second succeeds after the first. -/
theorem runs_bind {f : α → Edit σ β} {post : β → σ → Prop} :
    (edit >>= f).Runs s post ↔ edit.Runs s fun a s' => (f a).Runs s' post := by
  constructor
  · rintro ⟨b, s'', hrun, hb⟩
    obtain ⟨a, s', hfirst, hnext⟩ := runOn_bind_eq_ok.1 hrun
    exact ⟨a, s', hfirst, b, s'', hnext, hb⟩
  · rintro ⟨a, s', hfirst, b, s'', hnext, hb⟩
    exact ⟨b, s'', runOn_bind_eq_ok.2 ⟨a, s', hfirst, hnext⟩, hb⟩

/-- What is known of the first edit is all that the second one relies on. -/
theorem Runs.bind {mid : α → σ → Prop} {f : α → Edit σ β} {post : β → σ → Prop}
    (h : edit.Runs s mid) (hnext : ∀ a s', mid a s' → (f a).Runs s' post) :
    (edit >>= f).Runs s post := runs_bind.2 (h.mono hnext)

/-- To look at the state always succeeds. -/
theorem runs_get {post : σ → σ → Prop} (h : post s s) : (get : Edit σ σ).Runs s post :=
  ⟨s, s, rfl, h⟩

/-- To change the state always succeeds. -/
theorem runs_modify {f : σ → σ} {post : PUnit → σ → Prop} (h : post ⟨⟩ (f s)) :
    (modify f : Edit σ PUnit).Runs s post :=
  ⟨⟨⟩, f s, rfl, h⟩

/-- An edit of a part of the state succeeds if it does so on that part. -/
theorem runs_within {get : τ → σ} {set : σ → τ → τ} {t : τ} {post : α → τ → Prop}
    (h : edit.Runs (get t) fun a s' => post a (set s' t)) : (within get set edit).Runs t post := by
  obtain ⟨a, s', hrun, ha⟩ := h
  exact ⟨a, set s' t, by rw [runOn_within, hrun], ha⟩

/-- Both branches have to succeed, each under its condition. -/
theorem runs_ite {c : Prop} [Decidable c] {first second : Edit σ α} (h : c → first.Runs s post)
    (h' : ¬ c → second.Runs s post) : (if c then first else second).Runs s post := by
  split
  · next hc => exact h hc
  · next hc => exact h' hc

/-- A loop carries along what depends on the part of the list that has been dealt with. -/
theorem runs_forM_of_step {l : List α} {f : α → Edit σ PUnit} (P : List α → σ → Prop)
    (hstart : P [] s) (hstep : ∀ done a rest, l = done ++ a :: rest → ∀ s', P done s' →
      (f a).Runs s' fun _ s'' => P (done ++ [a]) s'') :
    (l.forM f).Runs s fun _ s' => P l s' := by
  suffices ∀ done rest, l = done ++ rest → ∀ s', P done s' →
      (rest.forM f).Runs s' fun _ s'' => P l s'' from this [] l rfl s hstart
  intro done rest
  induction rest generalizing done with
  | nil =>
      intro hl s' h
      rw [List.append_nil] at hl
      exact runs_pure.2 (hl ▸ h)
  | cons a rest ih =>
      intro hl s' h
      rw [List.forM_eq_forM, List.forM_cons]
      refine (hstep done a rest hl s' h).bind fun _ s'' h' => ?_
      exact ih (done ++ [a]) (by rw [hl, List.append_assoc]; rfl) s'' h'

/-- Edits for each element of a list succeed if each does so while an invariant holds. -/
theorem runs_forM {l : List α} {f : α → Edit σ PUnit} {P : σ → Prop} (hs : P s)
    (h : ∀ a ∈ l, ∀ s', P s' → (f a).Runs s' fun _ s'' => P s'') :
    (l.forM f).Runs s fun _ s' => P s' :=
  runs_forM_of_step (fun _ => P) hs fun _ a _ hl s' => h a (by simp [hl]) s'

end Edit

/-! ## Steps of graphs -/

/-- The forward edges of a graph that reads so ascend some rank. -/
def Ascends (reads : OperatorId → Input → Prop) : Prop :=
  ∃ rank : OperatorId → Nat, ∀ x i, reads x i → i.feedback = false → rank i.source < rank x

/-- With fewer edges a ranking remains one. -/
theorem Ascends.mono {reads reads' : OperatorId → Input → Prop} (h : Ascends reads)
    (hreads : ∀ x i, reads' x i → reads x i) : Ascends reads' := by
  obtain ⟨rank, hrank⟩ := h
  exact ⟨rank, fun x i hi => hrank x i (hreads x i hi)⟩

namespace Graph

variable {γ : Type} {g : Graph γ} {id s t : OperatorId} {op : Operator γ} {size : Nat}
  {ops : OperatorId → Option (Operator γ)} {reads : OperatorId → Input → Prop}

/-- An operator that is required and is there is found. -/
theorem runs_require {post : Node γ → Graph γ → Prop} (h : g.contains id = true)
    (hpost : ∀ n, g.node? id = some n → post n g) : (require id).Runs g post := by
  obtain ⟨n, hn⟩ := Option.isSome_iff_exists.1 h
  unfold require
  refine Edit.runs_bind.2 (Edit.runs_get ?_)
  rw [hn]
  exact Edit.runs_pure.2 (hpost n hn)

/-- Two operators that are there can be connected. -/
theorem runs_connect (operand : Nat) (feedback : Bool) (hs : g.contains s = true)
    (ht : g.contains t = true) : (connect s t operand feedback).Runs g fun _ _ => True := by
  unfold connect
  refine Edit.runs_bind.2 (Edit.runs_get ?_)
  rw [if_neg (by simp [ht])]
  refine Edit.runs_bind.2 (runs_require hs fun n _ => ?_)
  exact Edit.runs_ite (fun _ => Edit.runs_pure.2 trivial) fun _ => Edit.runs_modify trivial

/-- To change what a node holds adds and removes none. -/
theorem contains_mapNode (f : Node γ → Node γ) (x : OperatorId) :
    (g.mapNode id f).contains x = g.contains x := by
  simp only [contains, node?_mapNode]
  split <;> simp

/-- Two operators that are there can be disconnected, and both are still there. -/
theorem runs_disconnect (hs : g.contains s = true) (ht : g.contains t = true) :
    (disconnect s t).Runs g fun _ g' => ∀ x, g'.contains x = g.contains x := by
  unfold disconnect
  refine Edit.runs_bind.2 (runs_require hs fun _ _ => Edit.runs_bind.2 (Edit.runs_modify ?_))
  refine Edit.runs_bind.2 (runs_require ((contains_mapNode _ _).trans ht) fun _ _ => ?_)
  exact Edit.runs_modify fun x => (contains_mapNode _ x).trans (contains_mapNode _ x)

/-- Operators other than the root can be removed. -/
theorem runs_remove (h : g.Linked) (hroot : id ≠ root) (hid : g.contains id = true) :
    (remove id).Runs g fun _ _ => True := by
  unfold remove
  rw [if_neg hroot]
  refine Edit.runs_bind.2 (runs_require hid fun n hn => ?_)
  have hpreceding (s : OperatorId) (hs : s ∈ n.preceding) : g.contains s = true := by
    obtain ⟨e, he, -⟩ := (h s id).1 (by simpa [preceding, hn] using hs)
    exact contains_of_mem_succeeding he
  have hsucceeding (e : Edge) (he : e ∈ n.succeeding) : g.contains e.target = true :=
    h.contains_target (s := id) (by simpa [succeeding, hn] using he)
  refine (Edit.runs_forM (P := fun g' => ∀ x, g'.contains x = g.contains x) (fun _ => rfl)
    fun s hs g' h' => ?_).bind fun _ g₁ h₁ => ?_
  · exact (runs_disconnect ((h' s).trans (hpreceding s hs)) ((h' id).trans hid)).mono
      fun _ _ h'' x => (h'' x).trans (h' x)
  refine (Edit.runs_forM (P := fun g' => ∀ x, g'.contains x = g.contains x) h₁
    fun e he g' h' => ?_).bind fun _ g₂ _ => ?_
  · exact (runs_disconnect ((h' id).trans hid) ((h' e.target).trans (hsucceeding e he))).mono
      fun _ _ h'' x => (h'' x).trans (h' x)
  exact Edit.runs_bind.2 (Edit.runs_modify (Edit.runs_pure.2 trivial))

/-- An operator that is there can be replaced. -/
theorem runs_setOperator (op : Operator γ) (hid : g.contains id = true) :
    (setOperator id op).Runs g fun _ _ => True := by
  unfold setOperator
  exact Edit.runs_bind.2 (runs_require hid fun _ _ => Edit.runs_modify trivial)

/-- The variable sets can be computed if all edges lead upwards. -/
theorem runs_updateVariables (hrank : Ascends g.Reads) :
    updateVariables.Runs g fun _ _ => True := by
  obtain ⟨rank, hrank⟩ := hrank
  have hforward : ∀ x, ∀ y ∈ g.forward x, rank x < rank y := fun x y hy => by
    obtain ⟨-, e, he, rfl, hf⟩ := mem_forward.1 hy
    exact hrank e.target ⟨x, e.operand, e.feedback⟩ he hf
  obtain ⟨order, horder⟩ := topologicalOrder_of_rank hforward
  obtain ⟨values, hvalues⟩ : ∃ values, g.bounds = .ok values := by
    rw [Graph.bounds, propagate, horder]
    exact ⟨_, rfl⟩
  unfold updateVariables
  refine Edit.runs_bind.2 (Edit.runs_get ?_)
  rw [hvalues]
  exact ⟨_, _, rfl, trivial⟩

end Graph

/-! ## Steps of workspaces -/

namespace Reshape

open Edit

variable {γ : Type} {w : Workspace γ} {id s t : OperatorId} {op : Operator γ} {size : Nat}
  {ops : OperatorId → Option (Operator γ)} {reads : OperatorId → Input → Prop}

/-- To look something up in the graph always succeeds. -/
theorem runs_look {α : Type} {f : Graph γ → α} {post : α → Workspace γ → Prop}
    (h : post (f w.graph) w) : (look f).Runs w post :=
  runs_bind.2 (runs_get (runs_pure.2 h))

/-- An operator that is there can be looked at. -/
theorem runs_operator {post : Operator γ → Workspace γ → Prop}
    (hop : w.graph.operator? id = some op) (h : post op w) : (operator id).Runs w post := by
  unfold operator
  refine runs_bind.2 (runs_get ?_)
  rw [hop]
  exact runs_pure.2 h

/-- An edit of the graph succeeds on a workspace if it does so on its graph. -/
theorem runs_onGraph {α : Type} {edit : Edit (Graph γ) α} {post : α → Graph γ → Prop}
    (h : edit.Runs w.graph post) : (onGraph edit).Runs w fun a w' => post a w'.graph :=
  runs_within h

theorem runs_onIndex {f : KindIndex → KindIndex} :
    (onIndex f).Runs w fun _ w' => w'.graph = w.graph :=
  runs_modify rfl

section Wired

variable (h : w.graph.Wired size ops reads)

include h

/-- A new operator can always be added. -/
theorem runs_add (op : Operator γ) : (add op).Runs w fun n w' =>
    n = size ∧ w'.graph.Wired (size + 1) (fun x => if x = n then some op else ops x) reads := by
  have hadd : (add op).Runs w fun _ _ => True := ⟨_, _, rfl, trivial⟩
  exact ((wired_add h op).runs hadd).mono fun _ _ h' => h'.1

/-- An edge can be drawn between operators that are there. -/
theorem runs_connect (operand : Nat) (feedback : Bool) (hs : ops s ≠ none) (ht : ops t ≠ none) :
    (connect s t operand feedback).Runs w fun _ w' =>
      w'.graph.Wired size ops fun x i => reads x i ∨ x = t ∧ i = ⟨s, operand, feedback⟩ :=
  ((wired_connect h operand feedback).runs (runs_onGraph
    (Graph.runs_connect operand feedback (h.contains_iff.2 hs) (h.contains_iff.2 ht)))).mono
      fun _ _ h' => h'.1.2.2

/-- Edges can be taken away between operators that are there. -/
theorem runs_disconnect (hs : ops s ≠ none) (ht : ops t ≠ none) :
    (disconnect s t).Runs w fun _ w' =>
      w'.graph.Wired size ops fun x i => reads x i ∧ ¬ (x = t ∧ i.source = s) :=
  ((wired_disconnect h).runs (runs_onGraph
    (Graph.runs_disconnect (h.contains_iff.2 hs) (h.contains_iff.2 ht)))).mono fun _ _ h' => h'.1

/-- Any operator but the root can be removed. -/
theorem runs_remove (hroot : id ≠ Graph.root) (hid : ops id ≠ none) :
    (remove id).Runs w fun _ w' =>
      w'.graph.Wired size (fun x => if x = id then none else ops x)
        fun x i => reads x i ∧ x ≠ id ∧ i.source ≠ id := by
  have hremove : (remove id).Runs w fun _ _ => True :=
    (runs_onGraph (Graph.runs_remove h.linked hroot (h.contains_iff.2 hid))).bind fun _ _ _ =>
      runs_onIndex.mono fun _ _ _ => trivial
  exact ((wired_remove h).runs hremove).mono fun _ _ h' => h'.1.2

/-- An operator that is there can be replaced by any other. -/
theorem runs_replaceOperator (op : Operator γ) (hid : ops id ≠ none) :
    (replaceOperator id op).Runs w fun _ w' =>
      w'.graph.Wired size (fun x => if x = id then some op else ops x) reads := by
  obtain ⟨old, hold⟩ := Option.ne_none_iff_exists'.1 hid
  have hreplace : (replaceOperator id op).Runs w fun _ _ => True := by
    refine runs_bind.2 (runs_operator ((h.operator? id).trans hold) ?_)
    refine (runs_onGraph (Graph.runs_setOperator op (h.contains_iff.2 hid))).bind fun _ _ _ => ?_
    exact runs_onIndex.mono fun _ _ _ => trivial
  exact ((wired_replaceOperator h op).runs hreplace).mono fun _ _ h' => h'.1.2

/-- A workspace can be refreshed if all edges lead upwards. -/
theorem runs_refresh (hrank : Ascends reads) :
    (refresh : Reshape γ Unit).Runs w fun _ w' => w'.graph.Wired size ops reads := by
  have hrefresh : (refresh : Reshape γ Unit).Runs w fun _ _ => True :=
    runs_onGraph (Graph.runs_updateVariables
      (hrank.mono fun x i hi => (h.reads x i).1 hi))
  exact ((wired_refresh h).runs hrefresh).mono fun _ _ h' => h'.1

/-! ## Compound steps -/

/-- An operator can be put above any that is there. -/
theorem runs_above (op : Operator γ) (hs : ops s ≠ none) : (above s op).Runs w fun n w' =>
    n = size ∧ w'.graph.Wired (size + 1) (fun x => if x = n then some op else ops x)
      fun x i => reads x i ∨ x = n ∧ i = ⟨s, 0, false⟩ := by
  refine (runs_add h op).bind fun n w₁ ⟨hn, h₁⟩ => ?_
  have hs' : (if s = n then some op else ops s) ≠ none := by
    split
    · simp
    · exact hs
  exact (runs_connect h₁ 0 false hs' (by simp)).bind fun _ w₂ h₂ => runs_pure.2 ⟨hn, h₂⟩

omit h in
/-- Edges can be drawn between operators that are there, one after the other. -/
theorem runs_forM_connect {α : Type} {l : List α} {source target : α → OperatorId}
    {operand : α → Nat} {feedback : α → Bool}
    (h : ∃ reads, w.graph.Wired size ops reads) (hl : ∀ a ∈ l, ops (source a) ≠ none ∧
      ops (target a) ≠ none) :
    (l.forM fun a => connect (source a) (target a) (operand a) (feedback a)).Runs w fun _ w' =>
      ∃ reads, w'.graph.Wired size ops reads :=
  runs_forM h fun a ha _ ⟨_, h'⟩ =>
    (runs_connect h' _ _ (hl a ha).1 (hl a ha).2).mono fun _ _ h'' => ⟨_, h''⟩

/-- Whatever is there can be fed by any operator that is there. -/
theorem runs_feedAll {edges : List Edge} (hs : ops s ≠ none)
    (ht : ∀ e ∈ edges, ops e.target ≠ none) : (feedAll s edges).Runs w fun _ w' =>
      w'.graph.Wired size ops fun x i =>
        reads x i ∨ ∃ e ∈ edges, x = e.target ∧ i = ⟨s, e.operand, e.feedback⟩ :=
  ((wired_feedAll h edges).runs
    (runs_forM_connect ⟨reads, h⟩ fun e he => ⟨hs, ht e he⟩)).mono fun _ _ h' => h'.1

/-- Consumers can be moved from one operator to another. -/
theorem runs_redirectOutputs (hne : s ≠ t) (hs : ops s ≠ none) (ht : ops t ≠ none) :
    (redirectOutputs s t).Runs w fun _ w' => w'.graph.Wired size ops fun x i =>
      reads x i ∧ i.source ≠ s ∨ i.source = t ∧ reads x ⟨s, i.operand, i.feedback⟩ := by
  have htarget (e : Edge) (he : e ∈ w.graph.succeeding s) : ops e.target ≠ none :=
    (h.ends_of_reads (h.mem_succeeding.1 he)).1
  have hredirect : (redirectOutputs s t).Runs w fun _ _ => True := by
    refine runs_bind.2 (runs_look ?_)
    refine (runs_forM (P := fun w' => ∃ reads, w'.graph.Wired size ops reads) ⟨reads, h⟩
      fun e he w₁ ⟨_, h₁⟩ => ?_).mono fun _ _ _ => trivial
    refine (runs_disconnect h₁ hs (htarget e he)).bind fun _ w₂ h₂ => ?_
    exact (runs_connect h₂ _ _ ht (htarget e he)).mono fun _ _ h₃ => ⟨_, h₃⟩
  exact ((wired_redirectOutputs h hne).runs hredirect).mono fun _ _ h' => h'.1

/-- An operator can be put on any edge. -/
theorem runs_insertBetween {i : Input} (op : Operator γ) (hs : ops i.source ≠ none)
    (ht : ops t ≠ none) : (insertBetween i t op).Runs w fun n w' =>
      n = size ∧ w'.graph.Wired (size + 1) (fun x => if x = n then some op else ops x) fun x j =>
        reads x j ∧ ¬ (x = t ∧ j.source = i.source) ∨ x = n ∧ j = ⟨i.source, 0, false⟩ ∨
          x = t ∧ j = ⟨n, i.operand, i.feedback⟩ := by
  have hinsert : (insertBetween i t op).Runs w fun _ _ => True := by
    refine (runs_add h op).bind fun n w₁ ⟨hn, h₁⟩ => ?_
    have hlive {x : OperatorId} (hx : ops x ≠ none) :
        (if x = n then some op else ops x) ≠ none := by
      split
      · simp
      · exact hx
    refine (runs_disconnect h₁ (hlive hs) (hlive ht)).bind fun _ w₂ h₂ => ?_
    refine (runs_connect h₂ 0 false (hlive hs) (by simp)).bind fun _ w₃ h₃ => ?_
    refine (runs_connect h₃ i.operand i.feedback (by simp) (hlive ht)).bind fun _ w₄ _ => ?_
    exact runs_pure.2 trivial
  exact ((wired_insertBetween h op).runs hinsert).mono fun _ _ h' => h'.1

end Wired

end Reshape

end QuadAlgebra
