import Mathlib.Data.Set.Basic
import QuadAlgebra.Proofs.Optimization.Edges
import QuadAlgebra.Proofs.Typing.Drafts
import QuadAlgebra.Proofs.Variables.Rounds

/-!
# Labelled drafts

A label says of an operator which variables the rows on each of its operands may bind, and which
ones its own rows may bind. A graph is labelled if every operator fits its label and every edge
leads from rows to an operand that may have them (`Graph.Labelled`); then all rows of all rounds
keep to the labels. Labels are given to operators as they are drawn, and are never changed
afterwards, so a drawing is described by the labels that it starts from and by what it says about
those that it ends with (`KeepsLabels`).
-/

namespace QuadAlgebra

/-! ## Labels -/

/-- What rows may bind. -/
structure Label where
  /-- The variables that rows on an operand may bind. -/
  reads : Nat → Set Variable
  /-- The variables that the rows of the operator itself may bind. -/
  emits : Set Variable

namespace Label

/-- Nothing but the given variables is bound, on whatever operand and afterwards. -/
def within (V : Set Variable) : Label := ⟨fun _ => V, V⟩

/-- Whatever is read, nothing but the given variables is bound afterwards. -/
def onto (V : Set Variable) : Label := ⟨fun _ => Set.univ, V⟩

/-- Nothing but the given variables is bound on the first operand and afterwards. -/
def first (V : Set Variable) : Label := ⟨fun k => {v | k = 0 → v ∈ V}, V⟩

end Label

namespace Operator

variable {γ : Type} {op : Operator γ} {V : Set Variable} {D : VarSet}

/-- An operator below a result that makes what its label allows of what its label allows. -/
structure Fits (op : Operator γ) (l : Label) : Prop where
  inner : op.kind ≠ .result
  starts : ∀ D, op.Starts D → ∀ v ∈ D, v ∈ l.emits
  turns : ∀ k E D, op.Turns k E D → (∀ v ∈ E, v ∈ l.reads k) → ∀ v ∈ D, v ∈ l.emits
  merges : op.kind = .optional ∨ op.kind = .join → ∀ k, l.reads k ⊆ l.emits

/-- Every operator may do what it likes. -/
theorem fits_univ (h : op.kind ≠ .result) : op.Fits (.within Set.univ) :=
  ⟨h, fun _ _ _ _ => Set.mem_univ _, fun _ _ _ _ _ _ _ => Set.mem_univ _, fun _ _ => subset_rfl⟩

/-- An operator that binds nothing new. -/
theorem fits_within (hop : op.kind ≠ .result) (hstarts : ∀ D, ¬ op.Starts D)
    (hturns : ∀ k E D, op.Turns k E D → D = E) : op.Fits (.within V) :=
  ⟨hop, fun D h => absurd h (hstarts D), fun k E D h hE => hturns k E D h ▸ hE,
    fun _ _ => subset_rfl⟩

/-- Whatever a union reads within some variables it emits within them. -/
theorem fits_union : (union : Operator γ).Fits (.within V) :=
  fits_within nofun (fun _ => id) fun _ _ _ => id

/-- Joined solutions bind the variables of both. -/
theorem fits_join : (join : Operator γ).Fits (.within V) :=
  fits_within nofun (fun _ => id) fun _ _ _ h => h.elim

theorem fits_optional : (optional : Operator γ).Fits (.within V) :=
  fits_within nofun (fun _ => id) fun _ _ _ => And.right

theorem fits_distinct : (distinct : Operator γ).Fits (.within V) :=
  fits_within nofun (fun _ => id) fun _ _ _ => id

theorem fits_limit (n : Nat) : (limit n : Operator γ).Fits (.within V) :=
  fits_within nofun (fun _ => id) fun _ _ _ => id

theorem fits_offset (n : Nat) : (offset n : Operator γ).Fits (.within V) :=
  fits_within nofun (fun _ => id) fun _ _ _ => id

theorem fits_sort (keys : List SortKey) : (sort keys : Operator γ).Fits (.within V) :=
  fits_within nofun (fun _ => id) fun _ _ _ => id

/-- A filter drops solutions and leaves the others alone. -/
theorem fits_filter (f : Filter γ) : (filter f).Fits (.within V) :=
  fits_within nofun (fun _ => id) fun _ _ _ => id

theorem fits_ruleFilter (equalities : List (Item × Item)) :
    (ruleFilter equalities : Operator γ).Fits (.within V) :=
  fits_within nofun (fun _ => id) fun _ _ _ => id

theorem fits_window (w : Window) : (window w : Operator γ).Fits (.within V) :=
  fits_within nofun (fun _ => id) fun _ _ _ => id

/-- What another store would have to answer is never emitted. -/
theorem fits_service (endpoint : Item) (g : Group) (silent : Bool) :
    (service endpoint g silent : Operator γ).Fits (.within V) :=
  fits_within nofun (fun _ => id) fun _ _ _ h => h.elim

/-- A scan binds the variables of its patterns and of its graph only. -/
theorem fits_scan {s : IndexScan} (h : ∀ v ∈ s.vars, v ∈ V) :
    (scan s : Operator γ).Fits (.within V) := by
  refine ⟨nofun, fun _ hstarts => hstarts.elim, fun k E D (hturns : D = E ∪ s.vars) hE v hv => ?_,
    fun _ _ => subset_rfl⟩
  rw [hturns, OrdSet.mem_union] at hv
  exact hv.elim (hE v) (h v)

/-- A probe binds the variable of its graph at most. -/
theorem fits_probe {graph : Option Item} (h : ∀ v ∈ Item.vars graph.toList, v ∈ V) :
    (probe graph : Operator γ).Fits (.within V) := by
  refine ⟨nofun, fun _ hstarts => hstarts.elim,
    fun k E D (hturns : D = E ∪ Item.vars graph.toList) hE v hv => ?_, fun _ _ => subset_rfl⟩
  rw [hturns, OrdSet.mem_union] at hv
  exact hv.elim (hE v) (h v)

/-- A binding adds its target. -/
theorem fits_bind {target : Variable} (e : Expression) (h : target ∈ V) :
    (bind target e : Operator γ).Fits (.within V) := by
  refine ⟨nofun, fun _ hstarts => hstarts.elim,
    fun k E D (hturns : D = E.insert target ∨ e.isTotal E = false ∧ D = E) hE v hv => ?_,
    fun _ _ => subset_rfl⟩
  rcases hturns with rfl | ⟨-, rfl⟩
  · exact (OrdSet.mem_insert.1 hv).elim (fun he => he ▸ h) (hE v)
  · exact hE v hv

/-- A matcher binds the variables of its pattern. -/
theorem fits_matchTriple {p : TriplePattern} (h : ∀ v ∈ p.vars, v ∈ V) :
    (matchTriple p : Operator γ).Fits (.within V) :=
  ⟨nofun, fun _ (hstarts : _ = p.vars) => hstarts ▸ h, fun _ _ _ hturns => hturns.elim,
    fun _ _ => subset_rfl⟩

/-- A matcher of atoms binds the variables of its atom. -/
theorem fits_matchAtom {a : Atom} (h : ∀ v ∈ a.vars, v ∈ V) :
    (matchAtom a : Operator γ).Fits (.within V) :=
  ⟨nofun, fun _ (hstarts : _ = a.vars) => hstarts ▸ h, fun _ _ _ hturns => hturns.elim,
    fun _ _ => subset_rfl⟩

/-- A projection leaves nothing but its variables, whatever it reads. -/
theorem fits_projection (vars : VarSet) :
    (projection vars : Operator γ).Fits (.onto {v | v ∈ vars}) := by
  refine ⟨nofun, fun _ hstarts => hstarts.elim,
    fun k E D (hturns : D = E ∩ vars) _ v hv => ?_, nofun⟩
  rw [hturns] at hv
  exact (OrdSet.mem_inter.1 hv).2

/-- What is subtracted may bind other variables. -/
theorem fits_minus : (minus : Operator γ).Fits (.first V) := by
  refine ⟨nofun, fun _ hstarts => hstarts.elim,
    fun k E D (hturns : k = 0 ∧ D = E) hE v hv => ?_, nofun⟩
  obtain ⟨hk, rfl⟩ := hturns
  exact hE v hv hk

end Operator

/-- The labels of the operators of a draft. -/
structure Labels where
  /-- The number of operators. -/
  size : Nat
  label : OperatorId → Label

namespace Labels

variable {L L' : Labels} {id : OperatorId} {c : Cursor} {V W : Set Variable} {l : Label}

/-- The next operator has been labelled. -/
def extended (L : Labels) (l : Label) : Labels :=
  ⟨L.size + 1, fun x => if x = L.size then l else L.label x⟩

/-- More operators have been labelled. -/
instance : Preorder Labels where
  le L L' := L.size ≤ L'.size ∧ ∀ id < L.size, L'.label id = L.label id
  le_refl _ := ⟨Nat.le_refl _, fun _ _ => rfl⟩
  le_trans _ _ _ h h' := ⟨Nat.le_trans h.1 h'.1, fun id hid =>
    (h'.2 id (Nat.lt_of_lt_of_le hid h.1)).trans (h.2 id hid)⟩

/-- The operator has the label. -/
structure Has (L : Labels) (id : OperatorId) (l : Label) : Prop where
  lt : (id : Nat) < L.size
  label_eq : L.label id = l

/-- Rows of the operator bind nothing but the given variables. -/
structure Emits (L : Labels) (id : OperatorId) (V : Set Variable) : Prop where
  lt : (id : Nat) < L.size
  subset : (L.label id).emits ⊆ V

/-- The cursor may be fed with rows that bind nothing but the given variables. -/
structure Takes (L : Labels) (c : Cursor) (V : Set Variable) : Prop where
  lt : (c.target : Nat) < L.size
  subset : V ⊆ (L.label c.target).reads c.operand

/-- What has got a label keeps it when more operators get theirs. -/
theorem le_extended (L : Labels) (l : Label) : L ≤ L.extended l :=
  ⟨Nat.le_succ _, fun _ hx => if_neg hx.ne⟩

theorem Has.mono (h : L.Has id l) (hle : L ≤ L') : L'.Has id l :=
  ⟨Nat.lt_of_lt_of_le h.lt hle.1, (hle.2 id h.lt).trans h.label_eq⟩

theorem Emits.mono (h : L.Emits id V) (hle : L ≤ L') : L'.Emits id V :=
  ⟨Nat.lt_of_lt_of_le h.lt hle.1, hle.2 id h.lt ▸ h.subset⟩

theorem Takes.mono (h : L.Takes c V) (hle : L ≤ L') : L'.Takes c V :=
  ⟨Nat.lt_of_lt_of_le h.lt hle.1, hle.2 c.target h.lt ▸ h.subset⟩

/-- An operator emits what its label says. -/
theorem Has.emits (h : L.Has id l) : L.Emits id l.emits := ⟨h.lt, h.label_eq ▸ subset_rfl⟩

/-- An operator reads on each operand what its label says. -/
theorem Has.takes (h : L.Has id l) (k : Nat) : L.Takes ⟨id, k⟩ (l.reads k) :=
  ⟨h.lt, h.label_eq ▸ subset_rfl⟩

/-- What is emitted within few variables is emitted within more. -/
theorem Emits.weaken (h : L.Emits id V) (hVW : V ⊆ W) : L.Emits id W :=
  ⟨h.lt, h.subset.trans hVW⟩

/-- Nothing is said if all variables are allowed. -/
theorem Emits.any (h : L.Emits id V) : L.Emits id Set.univ := h.weaken (Set.subset_univ V)

/-- Whoever may be fed within many variables may be fed within fewer. -/
theorem Takes.weaken (h : L.Takes c W) (hVW : V ⊆ W) : L.Takes c V :=
  ⟨h.lt, hVW.trans h.subset⟩

end Labels

/-- A graph that has grown from an old one. The new operators fit their labels, and so do the new
edges. -/
structure Graph.Labelled (g old : Graph Plan) (L : Labels) : Prop where
  linked : g.Linked
  length : g.slots.length = L.size
  length_le : old.slots.length ≤ L.size
  root : old.operator? Graph.root = some .root
  root_emits : (L.label Graph.root).emits = ∅
  kept : ∀ id : Nat, id < old.slots.length → g.operator? id = old.operator? id
  fits : ∀ id op, old.slots.length ≤ id → g.operator? id = some op → op.Fits (L.label id)
  edges : ∀ id i, g.Reads id i →
    old.Reads id i ∨ (L.label i.source).emits ⊆ (L.label id).reads i.operand

namespace Graph.Labelled

variable {g old : Graph Plan} {L : Labels}

/-- The root is one of the operators that were there before. -/
theorem root_lt_old (h : g.Labelled old L) : (Graph.root : Nat) < old.slots.length :=
  Graph.lt_of_operator? h.root

theorem root_lt (h : g.Labelled old L) : (Graph.root : Nat) < L.size :=
  Nat.lt_of_lt_of_le h.root_lt_old h.length_le

end Graph.Labelled

/-! ## Drawings -/

/-- From a draft with these labels the drawing goes on to one with more labels, and what it returns
has a property. -/
def KeepsLabels {α : Type} (old : Graph Plan) (L : Labels) (draw : Draw α)
    (post : Labels → α → Prop) : Prop :=
  ∀ d : Draft, d.graph.Labelled old L → draw.Ends d fun a d' =>
    ∃ L', L ≤ L' ∧ d'.graph.Labelled old L' ∧ post L' a

/-- A drawing that returns nothing of interest. -/
abbrev noClaim {α : Type} : Labels → α → Prop := fun _ _ => True

namespace KeepsLabels

variable {α β : Type} {old : Graph Plan} {L : Labels} {draw : Draw α}
  {post : Labels → α → Prop} {post' : Labels → β → Prop}

/-- What has been decided is returned. -/
theorem pure {a : α} (ha : post L a) : KeepsLabels old L (Pure.pure a : Draw α) post :=
  fun _ h => Edit.ends_pure.2 ⟨L, le_rfl, h, ha⟩

/-- Nothing is drawn for a malformed request. -/
theorem malformed {cause : Malformed} : KeepsLabels old L (Draw.malformed cause : Draw α) post :=
  fun _ _ => Draw.ends_malformed

theorem unsupported {cause : Unsupported} :
    KeepsLabels old L (Draw.unsupported cause : Draw α) post := fun _ _ => Draw.ends_unsupported

/-- The second drawing starts with the labels that the first has given. -/
theorem bind {f : α → Draw β} (h : KeepsLabels old L draw post)
    (hf : ∀ a L', L ≤ L' → post L' a → KeepsLabels old L' (f a) post') :
    KeepsLabels old L (draw >>= f) post' := by
  refine fun d hd => (h d hd).bind fun a d₁ ⟨L₁, hle, hd₁, ha⟩ => ?_
  refine (hf a L₁ hle ha d₁ hd₁).mono fun b d₂ ⟨L₂, hle', hd₂, hb⟩ => ?_
  exact ⟨L₂, hle.trans hle', hd₂, hb⟩

/-- Less may be said about what is returned. -/
theorem mono {post₁ : Labels → α → Prop} (h : KeepsLabels old L draw post)
    (hpost : ∀ a L', L ≤ L' → post L' a → post₁ L' a) : KeepsLabels old L draw post₁ :=
  fun d hd => (h d hd).mono fun a _ ⟨L', hle, hd', ha⟩ => ⟨L', hle, hd', hpost a L' hle ha⟩

/-- Nothing is drawn after a failure. -/
theorem stopped {cause : Malformed} {f : α → Draw β} :
    KeepsLabels old L ((Draw.malformed cause : Draw α) >>= f) post' :=
  fun _ _ => Edit.ends_bind.2 Draw.ends_malformed

/-- Both branches keep the labels, each under its condition. -/
theorem ite {c : Prop} [Decidable c] {first second : Draw α}
    (h : c → KeepsLabels old L first post) (h' : ¬ c → KeepsLabels old L second post) :
    KeepsLabels old L (if c then first else second) post := by
  split
  · next hc => exact h hc
  · next hc => exact h' hc

/-- Numbers may be handed out, and operators remembered. -/
theorem of_graph_eq (h : ∀ d : Draft, draw.Ends d fun _ d' => d'.graph = d.graph) :
    KeepsLabels old L draw noClaim :=
  fun d hd => (h d).mono fun _ _ hgraph => ⟨L, le_rfl, hgraph ▸ hd, trivial⟩

/-- Drawings for each element of a list, each of which starts with the labels given so far. -/
theorem forM {l : List β} {f : β → Draw PUnit}
    (h : ∀ b ∈ l, ∀ L', L ≤ L' → KeepsLabels old L' (f b) noClaim) :
    KeepsLabels old L (l.forM f) noClaim := by
  induction l generalizing L with
  | nil => exact pure trivial
  | cons b rest ih =>
      rw [List.forM_eq_forM, List.forM_cons]
      refine (h b List.mem_cons_self L le_rfl).bind fun _ L₁ hle _ => ih fun b hb L₂ hle' => ?_
      exact h b (List.mem_cons_of_mem _ hb) L₂ (hle.trans hle')

/-- What a repetition returns keeps its property during those that follow. -/
theorem mapM {l : List β} {f : β → Draw α} (hmono : ∀ L L' a, L ≤ L' → post L a → post L' a)
    (h : ∀ b ∈ l, ∀ L', L ≤ L' → KeepsLabels old L' (f b) post) :
    KeepsLabels old L (l.mapM f) fun L' as => ∀ a ∈ as, post L' a := by
  induction l generalizing L with
  | nil =>
      rw [List.mapM_nil]
      exact pure fun a ha => absurd ha List.not_mem_nil
  | cons b rest ih =>
      rw [List.mapM_cons]
      refine (h b List.mem_cons_self L le_rfl).bind fun a L₁ hle ha => ?_
      refine (ih fun b hb L₂ hle' => h b (List.mem_cons_of_mem _ hb) L₂ (hle.trans hle')).bind
        fun as L₂ hle' has => pure ?_
      exact List.forall_mem_cons.2 ⟨hmono _ _ _ hle' ha, has⟩

/-- The operators that a repetition returns. -/
theorem mapM_emits {l : List β} {f : β → Draw OperatorId} {V : Set Variable}
    (h : ∀ b ∈ l, ∀ L', L ≤ L' → KeepsLabels old L' (f b) fun L₁ id => L₁.Emits id V) :
    KeepsLabels old L (l.mapM f) fun L' ids => ∀ id ∈ ids, L'.Emits id V :=
  mapM (fun _ _ _ hle hid => hid.mono hle) h

/-- Drawings in a row, each of which starts from what the one before has returned. -/
theorem foldlM {l : List β} {f : α → β → Draw α} {a : α} (ha : post L a)
    (h : ∀ a, ∀ b ∈ l, ∀ L', L ≤ L' → post L' a → KeepsLabels old L' (f a b) post) :
    KeepsLabels old L (l.foldlM f a) post := by
  induction l generalizing L a with
  | nil => exact pure ha
  | cons b rest ih =>
      rw [List.foldlM_cons]
      refine (h a b List.mem_cons_self L le_rfl ha).bind fun a' L₁ hle ha' => ih ha' ?_
      exact fun a b hb L₂ hle' => h a b (List.mem_cons_of_mem _ hb) L₂ (hle.trans hle')

/-! ### Single steps -/

variable {s t id : OperatorId} {k : Nat} {V : Set Variable} {c : Cursor} {l : Label}

/-- A new operator gets a label that it fits. -/
theorem add (op : Operator Plan) (l : Label) (hop : op.Fits l) :
    KeepsLabels old L (Draw.add op) fun L' id => L'.Has id l := by
  intro d hd
  have hroot := hd.root_lt
  unfold Draw.add Draw.onGraph
  refine Edit.ends_within.2 ((Graph.wired_add (.of_linked hd.linked) op).mono fun id g' h' => ?_)
  obtain ⟨hid, h'⟩ := h'
  obtain rfl : id = L.size := hid.trans hd.length
  have hold (x : Nat) (hx : x < L.size) : (L.extended l).label x = L.label x := if_neg hx.ne
  refine ⟨L.extended l, L.le_extended l, ⟨h'.linked, by rw [h'.length, hd.length]; rfl,
    Nat.le_succ_of_le hd.length_le, hd.root,
    (congrArg Label.emits (hold _ hroot)).trans hd.root_emits, fun x hx => ?_,
    fun x op' hx hop' => ?_, fun x i hi => ?_⟩, ⟨Nat.lt_succ_self _, if_pos rfl⟩⟩
  · exact (h'.operator? x).trans
      ((if_neg (Nat.lt_of_lt_of_le hx hd.length_le).ne).trans (hd.kept x hx))
  · rw [h'.operator?] at hop'
    show op'.Fits (if x = L.size then l else L.label x)
    split at hop'
    · next hx =>
      rw [if_pos hx]
      exact Option.some.inj hop' ▸ hop
    · next hne =>
      rw [if_neg hne]
      exact hd.fits x op' hx hop'
  · have hi := (h'.reads x i).1 hi
    have hlt {x : OperatorId} (hx : d.graph.operator? x ≠ none) : (x : Nat) < L.size :=
      hd.length ▸ (Graph.Wired.of_linked hd.linked).lt_of_ne_none hx
    obtain ⟨htarget, hsource⟩ := (Graph.Wired.of_linked hd.linked).ends_of_reads hi
    rw [hold x (hlt htarget), hold i.source (hlt hsource)]
    exact hd.edges x i hi

/-- An edge from rows to an operand that may have them. -/
theorem link (hs : L.Emits s V) (ht : L.Takes ⟨t, k⟩ V) (feedback : Bool) :
    KeepsLabels old L (Draw.onGraph (Graph.connect s t k feedback)) noClaim := by
  intro d hd
  refine Edit.ends_within.2 ((Graph.wired_connect (.of_linked hd.linked) k feedback).mono
    fun _ g' ⟨_, _, h'⟩ => ⟨L, le_rfl, ⟨h'.linked, h'.length.trans hd.length, hd.length_le,
      hd.root, hd.root_emits, fun x hx => (h'.operator? x).trans (hd.kept x hx),
      fun x op hx hop => hd.fits x op hx ((h'.operator? x).symm.trans hop), fun x i hi => ?_⟩,
      trivial⟩)
  rcases (h'.reads x i).1 hi with hi | ⟨rfl, rfl⟩
  · exact hd.edges x i hi
  · exact .inr (hs.subset.trans ht.subset)

/-- An edge may be drawn where what is emitted may be taken. -/
theorem connect (hs : L.Emits s V) (ht : L.Takes ⟨t, k⟩ V) :
    KeepsLabels old L (Draw.connect s t k) noClaim := link hs ht false

/-- The root may feed everything. -/
theorem connect_root (ht : (t : Nat) < L.size) :
    KeepsLabels old L (Draw.connect Graph.root t k) noClaim := fun d hd =>
  connect (V := ∅) ⟨hd.root_lt, hd.root_emits.subset⟩ ⟨ht, Set.empty_subset _⟩ d hd

/-- A fresh variable needs no label. -/
theorem freshVar : KeepsLabels old L Draw.freshVar noClaim := by
  refine of_graph_eq fun d => ?_
  unfold Draw.freshVar
  exact Edit.ends_bind.2 (Edit.ends_get.2 (Edit.ends_bind.2 (Edit.ends_set.2
    (Edit.ends_pure.2 rfl))))

/-- A source emits within the variables of its label. -/
theorem addSource (op : Operator Plan) (hop : op.Fits (.within V)) :
    KeepsLabels old L (Draw.addSource op) fun L' id => L'.Emits id V :=
  (add op _ hop).bind fun _ _ _ hid => (connect_root hid.lt).bind fun _ _ hle _ =>
    pure (hid.mono hle).emits

/-- An operator that is attached gets a label that fits it. -/
theorem attach (op : Operator Plan) (l : Label) (hop : op.Fits l) (hc : L.Takes c l.emits) :
    KeepsLabels old L (c.attach op) fun L' c' => L'.Has c'.target l :=
  (add op l hop).bind fun _ _ hle hid => (connect hid.emits (hc.mono hle)).bind fun _ _ hle' _ =>
    pure (hid.mono hle')

/-- Operators one above the other that bind nothing new. -/
theorem attachAll {ops : List (Operator Plan)} (hops : ∀ op ∈ ops, op.Fits (.within V))
    (hc : L.Takes c V) : KeepsLabels old L (c.attachAll ops) fun L' c' => L'.Takes c' V :=
  foldlM hc fun _ op hop _ _ hc => (attach op (.within V) (hops op hop) hc).mono
    fun c' _ _ hc' => hc'.takes c'.operand

theorem attachSource (op : Operator Plan) (hop : op.Fits (.within V)) (hc : L.Takes c V) :
    KeepsLabels old L (c.attachSource op) noClaim :=
  (addSource op hop).bind fun _ _ hle hid => connect hid (hc.mono hle)

/-- A producer may feed whoever takes what it emits. -/
theorem feed {producer : OperatorId} (hs : L.Emits producer V) (hc : L.Takes c V) :
    KeepsLabels old L (c.feed producer) noClaim := connect hs hc

theorem require {enabled : Bool} {feature : String} :
    KeepsLabels old L (Planner.require enabled feature) noClaim :=
  ite (fun _ => pure trivial) fun _ => unsupported

end KeepsLabels

end QuadAlgebra
