import QuadAlgebra.Proofs.Typing.Plans

/-!
# What the text of a plan shows

The text of a plan is read here line by line. Its outline says of every line which operator it is
about, and in what way: an operator is printed in full, or it is referred to, because it has been
printed before or because it is read over a feedback edge. The text is the outline, rendered
(`Graph.explain_eq`).

What is printed in full is what a walk sees that starts at the results and follows the edges that
are read forward, against their direction (`Graph.printed_outlineFrom`). So exactly the operators
from which a result can be reached over such edges are printed, each one once, and every reference
to something that has been printed before refers to one of them (`Plan.explain_shows`). A reference
over a feedback edge need not: the body of a loop that reaches no result but over its feedback edge
is not printed at all (`explain_closure_hides_body`).
-/

namespace QuadAlgebra

/-! ## Outlines -/

/-- What a line says. -/
inductive Mention where
  | full (id : OperatorId)
  | shared (id : OperatorId)
  | loop (id : OperatorId)
  | removed (id : OperatorId)
  | operand (k : Nat)
deriving DecidableEq

/-- The operator that a line prints in full. -/
def Mention.full? : Mention → Option OperatorId
  | .full id => some id
  | _ => none

/-- The operators that have been printed in full, latest first, and the lines with their
indentations. -/
structure Outline where
  printed : List OperatorId
  lines : List (Nat × Mention)

namespace Outline

/-- Nothing has been printed. -/
def empty : Outline := ⟨[], []⟩

/-- The outline with one more line. -/
def line (o : Outline) (depth : Nat) (m : Mention) : Outline :=
  { o with lines := o.lines ++ [(depth, m)] }

/-- The line of an operator that is printed in full. -/
def print (o : Outline) (depth : Nat) (id : OperatorId) : Outline :=
  ⟨id :: o.printed, o.lines ++ [(depth, .full id)]⟩

end Outline

/-- What stands below an operator: the headings of its operands, and what it reads. -/
inductive Piece where
  | heading (k : Nat)
  | edge (i : Input)

/-- Adds what stands below an operator. -/
def Outline.add (visit : Nat → Outline → OperatorId → Outline) (o : Outline) :
    Nat × Piece → Outline
  | (depth, .heading k) => o.line depth (.operand k)
  | (depth, .edge i) =>
    if i.feedback then o.line depth (.loop i.source)
    else if i.source = Graph.root then o
    else visit depth o i.source

namespace Graph

section

variable {γ : Type}

/-- Whether the operands of an operator of some kind have headings. -/
def hasHeadings (g : Graph γ) (kind : Kind) (id : OperatorId) : Bool :=
  (g.operandGroups id).length > 1 || [Kind.join, .optional, .minus].contains kind

/-- What stands below an operator of some kind, with the indentations. -/
def parts (g : Graph γ) (kind : Kind) (depth : Nat) (id : OperatorId) : List (Nat × Piece) :=
  (g.operandGroups id).flatMap fun group =>
    if g.hasHeadings kind id then
      (depth + 1, .heading group.1) :: group.2.map fun i => (depth + 2, .edge i)
    else group.2.map fun i => (depth + 1, .edge i)

/-- The outline of an operator and of what feeds it. -/
def outlineFrom (g : Graph γ) : Nat → Nat → Outline → OperatorId → Outline
  | 0, _, o, _ => o
  | levels + 1, depth, o, id =>
    match g.kind? id with
    | none => o.line depth (.removed id)
    | some kind =>
      if o.printed.contains id then o.line depth (.shared id)
      else (g.parts kind depth id).foldl (Outline.add (outlineFrom g levels)) (o.print depth id)

/-- Where the text of a graph starts: at the results, or at the sinks if there are none. -/
def tops (g : Graph γ) : List OperatorId :=
  if g.results.isEmpty then g.ids.filter fun id => (g.succeeding id).isEmpty else g.results

/-- The outline of a graph, with a bound on its levels. -/
def outlineUpTo (g : Graph γ) (levels : Nat) : Outline :=
  g.tops.foldl (g.outlineFrom levels 0) .empty

/-- The lines of the whole graph. -/
def outline (g : Graph γ) : List (Nat × Mention) := (g.outlineUpTo (g.slots.length + 2)).lines

/-- The operators that are printed in full, in the order of their lines. -/
def shown (g : Graph γ) : List OperatorId := g.outline.filterMap fun line => line.2.full?

end

end Graph

/-! ## The text is the outline, rendered -/

namespace Printout

/-- A way of printing that adds the same text to whatever has been printed. -/
def Appends (f : Printout → Printout) : Prop :=
  ∀ p, f p = ⟨p.printed, p.text ++ (f ⟨[], ""⟩).text⟩

/-- A line is added at the end. -/
theorem appends_line (depth : Nat) (s : String) : Appends fun p => p.line depth s := fun p => by
  simp only [line, String.append_assoc, String.empty_append]

/-- What adds lines twice adds lines. -/
theorem Appends.comp {f f' : Printout → Printout} (h : Appends f) (h' : Appends f') :
    Appends fun p => f' (f p) := fun p => by
  simp only
  rw [h' (f p), h p, h' (f ⟨[], ""⟩), String.append_assoc]

theorem Appends.foldl {α : Type} {f : Printout → α → Printout} (h : ∀ a, Appends fun p => f p a)
    (l : List α) : Appends fun p => l.foldl f p := by
  induction l with
  | nil => exact fun p => by simp
  | cons a rest ih => exact (h a).comp ih

/-- Prints an operator in full, together with its nested plans. -/
def node (depth : Nat) (id : OperatorId) (n : Node String) (p : Printout) : Printout :=
  let vars :=
    if n.possible.isEmpty then ""
    else " -> \x7b" ++ Operator.varTexts n.possible.toList ++ "\x7d"
  n.operator.nested.foldl (fun p (place, text) =>
    (linesOf text).foldl (fun p s => p.line (depth + 2) s)
      (p.line (depth + 1) ("exists #" ++ place.repr ++ ":")))
    (p.line depth (idText id ++ " " ++ n.operator.label ++ vars))

/-- A node is printed as some lines after what has been printed. -/
theorem appends_node (depth : Nat) (id : OperatorId) (n : Node String) :
    Appends (node depth id n) :=
  (appends_line depth _).comp (.foldl (fun _ => (appends_line (depth + 1) _).comp
    (.foldl (fun s => appends_line (depth + 2) s) _)) _)

end Printout

namespace Graph

section

variable {g : Graph String}

/-- The text of a line. -/
def rendered (g : Graph String) : Nat × Mention → String
  | (depth, .full id) =>
    match g.node? id with
    | none => ""
    | some n => (Printout.node depth id n ⟨[], ""⟩).text
  | (depth, .shared id) => (Printout.line ⟨[], ""⟩ depth ("^ " ++ idText id ++ " (shared)")).text
  | (depth, .loop id) => (Printout.line ⟨[], ""⟩ depth ("<~ " ++ idText id ++ " (loop)")).text
  | (depth, .removed id) => (Printout.line ⟨[], ""⟩ depth ("<removed " ++ idText id ++ ">")).text
  | (depth, .operand k) => (Printout.line ⟨[], ""⟩ depth ("operand " ++ k.repr ++ ":")).text

/-- What has been printed is what the outline says. -/
structure Prints (g : Graph String) (p : Printout) (o : Outline) : Prop where
  printed : p.printed = o.printed
  text : p.text = String.join (o.lines.map g.rendered)

/-- A line is printed for a line of the outline. -/
theorem Prints.add {p : Printout} {o : Outline} (h : g.Prints p o) {f : Printout → Printout}
    (hf : Printout.Appends f) {depth : Nat} {m : Mention}
    (hm : g.rendered (depth, m) = (f ⟨[], ""⟩).text) : g.Prints (f p) (o.line depth m) := by
  refine ⟨?_, ?_⟩
  · rw [hf p]
    exact h.printed
  · rw [hf p, Outline.line, List.map_append, String.join_append, ← h.text, List.map_singleton, hm]
    simp [String.join]

/-- An operator is printed in full for its line of the outline. -/
theorem Prints.node {p : Printout} {o : Outline} (h : g.Prints p o) {depth : Nat} {id : OperatorId}
    {n : Node String} (hn : g.node? id = some n) :
    g.Prints (Printout.node depth id n { p with printed := id :: o.printed })
      (o.print depth id) := by
  rw [Printout.appends_node depth id n]
  refine ⟨rfl, ?_⟩
  simp [Outline.print, h.text, rendered, hn, String.join]

/-- What is printed from an operator on are the lines of its outline. -/
theorem Prints.explainFrom (levels : Nat) : ∀ (depth : Nat) {p : Printout} {o : Outline}
    (_ : g.Prints p o) (id : OperatorId),
    g.Prints (g.explainFrom levels depth p id) (g.outlineFrom levels depth o id) := by
  induction levels with
  | zero => exact fun depth p o h id => h
  | succ levels ih =>
      intro depth p o h id
      rw [Graph.explainFrom, outlineFrom, kind?, operator?]
      cases hn : g.node? id with
      | none => exact h.add (Printout.appends_line _ _) rfl
      | some n =>
          simp only [Option.map_some, h.printed]
          split
          · exact h.add (Printout.appends_line _ _) rfl
          · rw [parts, List.foldl_flatMap]
            refine List.foldl_rel (r := g.Prints) (h.node hn) fun group _ p o h => ?_
            -- below a heading, if there are headings, the edges on one operand
            have hedges {depth : Nat} {p : Printout} {o : Outline} (h : g.Prints p o) :
                g.Prints
                  (group.2.foldl (fun p input =>
                    if input.feedback then p.line depth ("<~ " ++ idText input.source ++ " (loop)")
                    else if input.source = root then p
                    else g.explainFrom levels depth p input.source) p)
                  ((group.2.map fun i => (depth, Piece.edge i)).foldl
                    (Outline.add (g.outlineFrom levels)) o) := by
              rw [List.foldl_map]
              refine List.foldl_rel (r := g.Prints) h fun i _ p o h => ?_
              simp only [Outline.add]
              split
              · exact h.add (Printout.appends_line _ _) rfl
              · split
                · exact h
                · exact ih _ h _
            unfold hasHeadings
            cases (decide ((g.operandGroups id).length > 1) ||
              [Kind.join, .optional, .minus].contains n.operator.kind) with
            | false => exact hedges h
            | true => exact hedges (h.add (Printout.appends_line _ _) rfl)

/-- The text of a graph is its outline, rendered. -/
theorem explain_eq (g : Graph String) : g.explain = String.join (g.outline.map g.rendered) :=
  (List.foldl_rel (r := g.Prints) ⟨rfl, rfl⟩ fun id _ _ _ h => h.explainFrom _ 0 id).text

end

/-! ## What is printed in full -/

section

variable {γ : Type} {g : Graph γ}

/-- The producers that an operator reads forward, but for the root. -/
def below (g : Graph γ) (id : OperatorId) : List OperatorId :=
  (g.operandGroups id).flatMap fun group =>
    (group.2.filter fun i => !i.feedback && i.source != root).map Input.source

/-- The edges of a node are its inputs. -/
theorem mem_parts {kind : Kind} {depth : Nat} {id : OperatorId} {i : Input} :
    (∃ d, (d, .edge i) ∈ g.parts kind depth id) ↔ i ∈ g.inputs id := by
  have hgroups : (∃ group ∈ g.operandGroups id, i ∈ group.2) ↔ i ∈ g.inputs id := by
    simp only [operandGroups, List.mem_map, mem_distinctOf]
    constructor
    · rintro ⟨-, ⟨k, -, rfl⟩, hi⟩
      exact (List.mem_filter.1 hi).1
    · exact fun hi => ⟨_, ⟨i.operand, ⟨i, hi, rfl⟩, rfl⟩, List.mem_filter.2 ⟨hi, by simp⟩⟩
  rw [← hgroups]
  simp only [parts, List.mem_flatMap]
  cases g.hasHeadings kind id <;> simp

/-- What is printed below an operator are those of its inputs that are no feedback edges. -/
theorem mem_below {s t : OperatorId} :
    s ∈ g.below t ↔ s ≠ root ∧ ∃ i ∈ g.inputs t, i.feedback = false ∧ i.source = s := by
  simp only [below, operandGroups, List.mem_flatMap, List.mem_map, List.mem_filter,
    mem_distinctOf, Bool.and_eq_true, Bool.not_eq_true', bne_iff_ne]
  constructor
  · rintro ⟨-, ⟨k, -, rfl⟩, i, ⟨hi, hf, hroot⟩, rfl⟩
    exact ⟨hroot, i, (List.mem_filter.1 hi).1, hf, rfl⟩
  · rintro ⟨hroot, i, hi, hf, rfl⟩
    exact ⟨_, ⟨i.operand, ⟨i, hi, rfl⟩, rfl⟩, i, ⟨List.mem_filter.2 ⟨hi, by simp⟩, hf, hroot⟩, rfl⟩

/-- Only operators are printed below operators. -/
theorem below_subset (g : Graph γ) : ∀ x, ∀ y ∈ g.below x, y ∈ g.ids := by
  intro x y hy
  obtain ⟨-, i, hi, -, rfl⟩ := mem_below.1 hy
  exact source_mem_ids hi

/-- Every operator has a kind. -/
theorem exists_kind {id : OperatorId} (h : id ∈ g.ids) : ∃ kind, g.kind? id = some kind := by
  have hc := mem_ids.1 h
  unfold contains at hc
  obtain ⟨n, hn⟩ := Option.isSome_iff_exists.1 hc
  exact ⟨n.operator.kind, by rw [kind?, operator?, hn]; rfl⟩

/-- The operators that are printed in full are those that a walk against the edges sees. -/
theorem printed_outlineFrom (levels : Nat) : ∀ (depth : Nat) {o : Outline} {w : Walk}
    (_ : o.printed = w.seen) {id : OperatorId} (_ : id ∈ g.ids),
    (g.outlineFrom levels depth o id).printed = (w.visit g.below levels id).seen := by
  induction levels with
  | zero => exact fun depth o w h id hid => h
  | succ levels ih =>
      intro depth o w h id hid
      obtain ⟨kind, hkind⟩ := exists_kind hid
      rw [outlineFrom, hkind, Walk.visit]
      simp only [h]
      split
      · exact h
      · rw [parts, below, List.foldl_flatMap, List.foldl_flatMap]
        refine List.foldl_rel (r := fun (o : Outline) (w : Walk) => o.printed = w.seen)
          (congrArg (id :: ·) h)
          fun group hgroup o w h => ?_
        have hinputs : ∀ i ∈ group.2, i ∈ g.inputs id := by
          obtain ⟨k, -, rfl⟩ := List.mem_map.1 hgroup
          exact fun i hi => (List.mem_filter.1 hi).1
        have hedges {depth : Nat} {o : Outline} (h : o.printed = w.seen) :
            ((group.2.map fun i => (depth, Piece.edge i)).foldl
              (Outline.add (g.outlineFrom levels)) o).printed =
            (((group.2.filter fun i => !i.feedback && i.source != root).map Input.source).foldl
              (Walk.visit g.below levels) w).seen := by
          rw [List.foldl_map, List.foldl_map, List.foldl_filter]
          refine List.foldl_rel (r := fun (o : Outline) (w : Walk) => o.printed = w.seen) h
            fun i hi o w h => ?_
          cases hf : i.feedback with
          | true => simpa [Outline.add, Outline.line, hf] using h
          | false =>
              by_cases hroot : i.source = root
              · simpa [Outline.add, hf, hroot] using h
              · simpa [Outline.add, hf, hroot] using ih depth h (source_mem_ids (hinputs i hi))
        split
        · exact hedges h
        · exact hedges h

/-- The outline starts from operators. -/
theorem tops_subset (g : Graph γ) : ∀ id ∈ g.tops, id ∈ g.ids := by
  intro id hid
  unfold tops at hid
  split at hid
  · exact (List.mem_filter.1 hid).1
  · exact (List.mem_filter.1 hid).1

/-- With levels enough, an operator is printed just if it is reached from one of the tops. -/
theorem mem_printed_outlineUpTo {levels : Nat} (hlevels : g.ids.length < levels)
    {id : OperatorId} : id ∈ (g.outlineUpTo levels).printed ↔
      ∃ top ∈ g.tops, Relation.ReflTransGen (Walk.Step g.below) top id := by
  have hprinted : (g.outlineUpTo levels).printed =
      (g.tops.foldl (Walk.visit g.below levels) .start).seen :=
    List.foldl_rel (r := fun (o : Outline) (w : Walk) => o.printed = w.seen) rfl
      fun top htop _ _ h => printed_outlineFrom levels 0 h (g.tops_subset top htop)
  rw [hprinted, Walk.mem_seen_foldl_visit_iff g.ids g.below_subset hlevels g.tops_subset]

/-! ## What the lines refer to -/

/-- What each line adds to an outline keeps a property, if the four ways to add a line do. -/
theorem outlineFrom_induction {P : Outline → Prop}
    (hheading : ∀ o depth k, P o → P (o.line depth (.operand k)))
    (hloop : ∀ (o : Outline) depth t i, i ∈ g.inputs t → i.feedback = true → t ∈ o.printed → P o →
      P (o.line depth (.loop i.source)))
    (hshared : ∀ (o : Outline) depth id, id ∈ o.printed → P o → P (o.line depth (.shared id)))
    (hprint : ∀ (o : Outline) depth id, id ∉ o.printed → P o → P (o.print depth id))
    (levels : Nat) : ∀ (depth : Nat) (o : Outline) (id : OperatorId), id ∈ g.ids → P o →
      P (g.outlineFrom levels depth o id) ∧
        ∀ x ∈ o.printed, x ∈ (g.outlineFrom levels depth o id).printed := by
  induction levels with
  | zero => exact fun depth o id hid h => ⟨h, fun _ hx => hx⟩
  | succ levels ih =>
      intro depth o id hid h
      obtain ⟨kind, hkind⟩ := exists_kind hid
      rw [outlineFrom, hkind]
      simp only
      split
      · next hseen => exact ⟨hshared o depth id (List.contains_iff_mem.1 hseen) h, fun _ hx => hx⟩
      · next hnew =>
        have hfold := List.foldlRecOn (g.parts kind depth id) (Outline.add (g.outlineFrom levels))
          (b := o.print depth id)
          (motive := fun o' => P o' ∧ ∀ x ∈ (o.print depth id).printed, x ∈ o'.printed)
          ⟨hprint o depth id (fun hid => hnew (List.contains_iff_mem.2 hid)) h, fun _ hx => hx⟩ ?_
        · exact ⟨hfold.1, fun x hx => hfold.2 x (List.mem_cons_of_mem _ hx)⟩
        rintro o' ⟨ho', hprinted⟩ ⟨d, part⟩ hpart
        cases part with
        | heading k => exact ⟨hheading o' d k ho', hprinted⟩
        | edge i =>
            have hi := mem_parts.1 ⟨d, hpart⟩
            simp only [Outline.add]
            split
            · next hf =>
                exact ⟨hloop o' d id i hi hf (hprinted id List.mem_cons_self) ho', hprinted⟩
            · split
              · exact ⟨ho', hprinted⟩
              · obtain ⟨hP, hmore⟩ := ih d o' i.source (source_mem_ids hi) ho'
                exact ⟨hP, fun x hx => hmore x (hprinted x hx)⟩

/-- What has been printed stays printed. -/
theorem printed_subset (levels depth : Nat) (o : Outline) {id x : OperatorId} (hid : id ∈ g.ids)
    (hx : x ∈ o.printed) : x ∈ (g.outlineFrom levels depth o id).printed :=
  (outlineFrom_induction (P := fun _ => True) (fun _ _ _ _ => trivial)
    (fun _ _ _ _ _ _ _ _ => trivial) (fun _ _ _ _ _ => trivial) (fun _ _ _ _ _ => trivial)
    levels depth o id hid trivial).2 x hx

/-- What the lines of an outline say agrees with what has been printed. -/
structure Consistent (g : Graph γ) (o : Outline) : Prop where
  nodup : o.printed.Nodup
  full : (o.lines.filterMap fun line => line.2.full?) = o.printed.reverse
  shared : ∀ depth id, (depth, .shared id) ∈ o.lines → id ∈ o.printed
  loop : ∀ depth x, (depth, .loop x) ∈ o.lines →
    ∃ t ∈ o.printed, ∃ i ∈ g.inputs t, i.feedback = true ∧ i.source = x
  removed : ∀ depth id, (depth, .removed id) ∉ o.lines

namespace Consistent

variable {o : Outline}

/-- The empty outline is consistent. -/
theorem empty (g : Graph γ) : g.Consistent .empty where
  nodup := List.nodup_nil
  full := rfl
  shared _ _ h := absurd h List.not_mem_nil
  loop _ _ h := absurd h List.not_mem_nil
  removed _ _ h := absurd h List.not_mem_nil

/-- A line that prints no operator in full and is right about what it refers to. -/
theorem line (h : g.Consistent o) {depth : Nat} {m : Mention} (hfull : m.full? = none)
    (hshared : ∀ id, m = .shared id → id ∈ o.printed)
    (hloop : ∀ x, m = .loop x →
      ∃ t ∈ o.printed, ∃ i ∈ g.inputs t, i.feedback = true ∧ i.source = x)
    (hremoved : ∀ id, m ≠ .removed id) : g.Consistent (o.line depth m) := by
  have hmem {d : Nat} {m' : Mention} (hm : (d, m') ∈ (o.line depth m).lines) :
      (d, m') ∈ o.lines ∨ m = m' := by
    rcases List.mem_append.1 hm with hm | hm
    · exact .inl hm
    · exact .inr (Prod.mk.inj (List.mem_singleton.1 hm)).2.symm
  refine ⟨h.nodup, ?_, fun d id hm => ?_, fun d x hm => ?_, fun d id hm => ?_⟩
  · simpa [Outline.line, hfull] using h.full
  · exact (hmem hm).elim (h.shared d id) (hshared id)
  · exact (hmem hm).elim (h.loop d x) (hloop x)
  · exact (hmem hm).elim (h.removed d id) (hremoved id)

/-- An operator that has not been printed may be printed. -/
theorem print (h : g.Consistent o) (depth : Nat) {id : OperatorId} (hnew : id ∉ o.printed) :
    g.Consistent (o.print depth id) := by
  have hmem {d : Nat} {m : Mention} (hm : (d, m) ∈ (o.print depth id).lines)
      (hfull : m.full? = none) : (d, m) ∈ o.lines := by
    rcases List.mem_append.1 hm with hm | hm
    · exact hm
    · obtain ⟨-, rfl⟩ := Prod.mk.inj (List.mem_singleton.1 hm)
      cases hfull
  refine ⟨List.nodup_cons.2 ⟨hnew, h.nodup⟩, ?_, fun d x hm => ?_, fun d x hm => ?_,
    fun d x hm => h.removed d x (hmem hm rfl)⟩
  · simpa [Outline.print, Mention.full?] using h.full
  · exact List.mem_cons_of_mem _ (h.shared d x (hmem hm rfl))
  · obtain ⟨t, ht, hx⟩ := h.loop d x (hmem hm rfl)
    exact ⟨t, List.mem_cons_of_mem _ ht, hx⟩

/-- An outline stays consistent from an operator on. -/
theorem outlineFrom (h : g.Consistent o) (levels depth : Nat) {id : OperatorId} (hid : id ∈ g.ids) :
    g.Consistent (g.outlineFrom levels depth o id) := by
  refine (outlineFrom_induction (fun o d k h => ?_) (fun o d t i hi hf ht h => ?_)
    (fun o d x hx h => ?_) (fun o d x hx h => h.print d hx) levels depth o id hid h).1
  · exact h.line rfl (by simp) (by simp) (by simp)
  · refine h.line rfl (by simp) (fun x hx => ?_) (by simp)
    obtain rfl := Mention.loop.inj hx
    exact ⟨t, ht, i, hi, hf, rfl⟩
  · refine h.line rfl (fun y hy => ?_) (by simp) (by simp)
    obtain rfl := Mention.shared.inj hy
    exact hx

end Consistent

/-- The outline of the whole graph is consistent. -/
theorem consistent_outlineUpTo (g : Graph γ) (levels : Nat) :
    g.Consistent (g.outlineUpTo levels) :=
  List.foldlRecOn g.tops (g.outlineFrom levels 0) (.empty g) fun _ h top htop =>
    h.outlineFrom levels 0 (g.tops_subset top htop)

/-! ## Every feedback edge is shown -/

/-- Every line that has been written stays, and what has been printed anew has lines for all that it
reads over feedback edges. -/
structure Finishes (g : Graph γ) (o o' : Outline) : Prop where
  lines : ∀ line ∈ o.lines, line ∈ o'.lines
  loops : ∀ t ∈ o'.printed, t ∈ o.printed ∨ ∀ i ∈ g.inputs t, i.feedback = true →
    ∃ depth, (depth, .loop i.source) ∈ o'.lines

namespace Finishes

variable {o o' o'' : Outline}

theorem refl (g : Graph γ) (o : Outline) : g.Finishes o o := ⟨fun _ h => h, fun _ h => .inl h⟩

theorem line (g : Graph γ) (o : Outline) (depth : Nat) (m : Mention) :
    g.Finishes o (o.line depth m) :=
  ⟨fun _ h => List.mem_append_left _ h, fun _ h => .inl h⟩

theorem trans (h : g.Finishes o o') (h' : g.Finishes o' o'') : g.Finishes o o'' := by
  refine ⟨fun line hl => h'.lines line (h.lines line hl), fun t ht => ?_⟩
  rcases h'.loops t ht with ht | hall
  · refine (h.loops t ht).imp_right fun hall i hi hf => ?_
    obtain ⟨depth, hl⟩ := hall i hi hf
    exact ⟨depth, h'.lines _ hl⟩
  · exact .inr hall

/-- The parts of a node add lines for operators that get finished. -/
theorem add {visit : Nat → Outline → OperatorId → Outline}
    (hvisit : ∀ depth o id, g.Finishes o (visit depth o id)) (o : Outline) (part : Nat × Piece) :
    g.Finishes o (o.add visit part) := by
  obtain ⟨depth, part⟩ := part
  cases part with
  | heading k => exact line g o depth _
  | edge i =>
      simp only [Outline.add]
      split
      · exact line g o depth _
      · split
        · exact refl g o
        · exact hvisit depth o i.source

theorem foldl {α : Type} {f : Outline → α → Outline} (hf : ∀ o a, g.Finishes o (f o a))
    (l : List α) (o : Outline) : g.Finishes o (l.foldl f o) :=
  List.foldlRecOn l f (refl g o) fun o' h a _ => h.trans (hf o' a)

/-- Whatever is begun below an operator is finished with it. -/
theorem outlineFrom (levels : Nat) :
    ∀ depth o id, g.Finishes o (g.outlineFrom levels depth o id) := by
  induction levels with
  | zero => exact fun depth o id => refl g o
  | succ levels ih =>
      intro depth o id
      rw [Graph.outlineFrom]
      cases g.kind? id with
      | none => exact line g o depth _
      | some kind =>
          simp only
          split
          · exact line g o depth _
          · have hadd := add ih
            have hfold := foldl hadd (g.parts kind depth id) (o.print depth id)
            refine ⟨fun line hl => hfold.lines line (List.mem_append_left _ hl), fun t ht => ?_⟩
            rcases hfold.loops t ht with ht | hall
            · refine (List.mem_cons.1 ht).symm.imp_right ?_
              rintro rfl i hi hf
              -- the line is written when the edge is met, and stays
              obtain ⟨d, hpart⟩ := mem_parts.2 hi
              obtain ⟨l₁, l₂, hparts⟩ := List.append_of_mem hpart
              rw [hparts, List.foldl_append, List.foldl_cons]
              refine ⟨d, (foldl hadd l₂ _).lines _ ?_⟩
              rw [Outline.add, if_pos hf]
              exact List.mem_append_right _ (List.mem_singleton.2 rfl)
            · exact .inr hall

end Finishes

/-- The lines that refer over feedback edges are about what the printed operators read. -/
theorem mem_loops_outlineUpTo {levels : Nat} {x : OperatorId} :
    (∃ depth, (depth, .loop x) ∈ (g.outlineUpTo levels).lines) ↔
      ∃ t ∈ (g.outlineUpTo levels).printed, ∃ i ∈ g.inputs t, i.feedback = true ∧ i.source = x := by
  constructor
  · rintro ⟨depth, h⟩
    exact (g.consistent_outlineUpTo levels).loop depth x h
  · rintro ⟨t, ht, i, hi, hf, rfl⟩
    have hall : g.Finishes .empty (g.outlineUpTo levels) :=
      Finishes.foldl (fun o id => Finishes.outlineFrom levels 0 o id) g.tops .empty
    exact ((hall.loops t ht).resolve_left List.not_mem_nil) i hi hf

/-! ## The bound on the levels -/

/-- Two bounds that exceed the number of operators that have not been printed are equally good. -/
theorem outlineFrom_levels (levels : Nat) : ∀ (levels' depth : Nat) (o : Outline) (id : OperatorId),
    id ∈ g.ids → Walk.unseen g.ids ⟨o.printed, []⟩ < levels →
    Walk.unseen g.ids ⟨o.printed, []⟩ < levels' →
    g.outlineFrom levels depth o id = g.outlineFrom levels' depth o id := by
  induction levels with
  | zero => exact fun _ _ _ _ _ h => absurd h (Nat.not_lt_zero _)
  | succ levels ih =>
      intro levels' depth o id hid h h'
      obtain ⟨levels', rfl⟩ : ∃ k, levels' = k + 1 := ⟨levels' - 1, by omega⟩
      obtain ⟨kind, hkind⟩ := exists_kind hid
      rw [outlineFrom, outlineFrom, hkind]
      simp only
      split
      · rfl
      · next hnew =>
        have hless : Walk.unseen g.ids ⟨id :: o.printed, []⟩ < Walk.unseen g.ids ⟨o.printed, []⟩ :=
          Walk.unseen_cons_lt (w := ⟨o.printed, []⟩) g.ids hid
            fun hc => hnew (List.contains_iff_mem.2 hc)
        have hfold := List.foldl_rel (l := g.parts kind depth id)
          (f := Outline.add (g.outlineFrom levels)) (g := Outline.add (g.outlineFrom levels'))
          (r := fun o₁ o₂ => o₁ = o₂ ∧ ∀ x ∈ (o.print depth id).printed, x ∈ o₁.printed)
          (a := o.print depth id) ⟨rfl, fun _ hx => hx⟩ ?_
        · exact hfold.1
        rintro ⟨d, part⟩ hpart o' _ ⟨rfl, hprinted⟩
        cases part with
        | heading k => exact ⟨rfl, hprinted⟩
        | edge i =>
            have hi := source_mem_ids (mem_parts.1 ⟨d, hpart⟩)
            have hunseen : Walk.unseen g.ids ⟨o'.printed, []⟩ ≤
                Walk.unseen g.ids ⟨id :: o.printed, []⟩ := Walk.unseen_le g.ids hprinted
            simp only [Outline.add]
            split
            · exact ⟨rfl, hprinted⟩
            · split
              · exact ⟨rfl, hprinted⟩
              · refine ⟨ih levels' d o' i.source hi (by omega) (by omega), fun x hx => ?_⟩
                exact printed_subset levels d o' hi (hprinted x hx)

/-- More levels than there are operators make no difference. -/
theorem outlineUpTo_levels {levels : Nat} (hlevels : g.slots.length < levels) :
    g.outlineUpTo levels = g.outlineUpTo (g.slots.length + 2) := by
  refine List.foldl_rel (r := (· = ·)) rfl fun top htop o _ ho => ?_
  obtain rfl := ho
  have hunseen : Walk.unseen g.ids ⟨o.printed, []⟩ ≤ g.slots.length :=
    (List.length_filter_le _ _).trans g.length_ids_le
  exact outlineFrom_levels levels _ 0 o top (g.tops_subset top htop) (by omega) (by omega)

/-! ## Nested plans -/

theorem parts_mapNested {δ : Type} (f : γ → δ) (g : Graph γ) (kind : Kind) (depth : Nat)
    (id : OperatorId) : (g.mapNested f).parts kind depth id = g.parts kind depth id := by
  have hgroups : (g.mapNested f).operandGroups id = g.operandGroups id := by
    rw [operandGroups, operandGroups, inputs_mapNested]
  unfold parts hasHeadings
  rw [hgroups]

/-- Plans that are nested in operators do not show in the outline. -/
theorem outline_mapNested {δ : Type} (f : γ → δ) (g : Graph γ) :
    (g.mapNested f).outline = g.outline := by
  have hfrom (levels : Nat) : (g.mapNested f).outlineFrom levels = g.outlineFrom levels := by
    induction levels with
    | zero => rfl
    | succ levels ih =>
        funext depth o id
        rw [outlineFrom, outlineFrom, kind?_mapNested, ih]
        simp only [parts_mapNested]
  have htops : (g.mapNested f).tops = g.tops := by
    simp only [tops, results_mapNested, ids_mapNested, succeeding_mapNested]
  simp only [outline, outlineUpTo, hfrom, htops, length_mapNested]

/-- An operator other than the root that is read forward by another one. -/
def Delivers (g : Graph γ) (s t : OperatorId) : Prop :=
  s ≠ root ∧ ∃ i ∈ g.inputs t, i.feedback = false ∧ i.source = s

theorem shown_eq (g : Graph γ) :
    g.shown = (g.outlineUpTo (g.slots.length + 2)).printed.reverse :=
  (g.consistent_outlineUpTo _).full

/-- An operator is shown just if it delivers to one of the tops, feedback edges apart. -/
theorem mem_shown_iff {id : OperatorId} :
    id ∈ g.shown ↔ ∃ top ∈ g.tops, Relation.ReflTransGen g.Delivers id top := by
  have hstep : Walk.Step g.below = Function.swap g.Delivers :=
    funext fun t => funext fun s => propext mem_below
  rw [shown_eq, List.mem_reverse,
    mem_printed_outlineUpTo (Nat.lt_succ_of_le (Nat.le_succ_of_le g.length_ids_le)), hstep]
  simp only [Relation.reflTransGen_swap]

end

end Graph

namespace Plan

/-- The graph of a plan with the texts of its nested plans. -/
def described (p : Plan) : Graph String := p.graph.mapNested Plan.explain

/-- The text of a plan is the text of its described graph. -/
theorem explain_described (p : Plan) : p.explain = p.described.explain :=
  Plan.fold_eq Graph.explain p

/-- What the text of a plan shows. It is the outline of the graph, rendered, and no bound on its
levels cuts anything off. The operators that are printed in full are printed once, and are exactly
those from which a result is reached over edges that are read forward, the root left out. What is
referred to as printed before is printed in full; and there is a reference over a feedback edge
exactly for what a printed operator reads over one. -/
theorem explain_shows (p : Plan) :
    p.explain = String.join (p.graph.outline.map p.described.rendered) ∧
      (∀ more, (p.graph.outlineUpTo (p.graph.slots.length + 1 + more)).lines = p.graph.outline) ∧
      p.graph.shown.Nodup ∧
      (∀ id, id ∈ p.graph.shown ↔
        ∃ top ∈ p.graph.tops, Relation.ReflTransGen p.graph.Delivers id top) ∧
      (∀ depth id, (depth, .shared id) ∈ p.graph.outline → id ∈ p.graph.shown) ∧
      (∀ x, (∃ depth, (depth, .loop x) ∈ p.graph.outline) ↔
        ∃ t ∈ p.graph.shown, ∃ i ∈ p.graph.inputs t, i.feedback = true ∧ i.source = x) ∧
      ∀ depth id, (depth, .removed id) ∉ p.graph.outline := by
  have hcons := p.graph.consistent_outlineUpTo (p.graph.slots.length + 2)
  simp only [Graph.shown_eq, List.mem_reverse]
  refine ⟨?_, fun more => ?_, List.nodup_reverse.2 hcons.nodup, fun id => ?_, hcons.shared,
    fun x => Graph.mem_loops_outlineUpTo, hcons.removed⟩
  · rw [explain_described, Graph.explain_eq, described, Graph.outline_mapNested]
  · exact congrArg Outline.lines (Graph.outlineUpTo_levels (by omega))
  · rw [← Graph.mem_shown_iff, Graph.shown_eq, List.mem_reverse]

end Plan

/-- Everything that can be reached over one predicate: `SELECT * { ?s <p>+ ?o }`. -/
def closureOfPredicate : Query :=
  .selectAll ⟨[.path ⟨.var ⟨"s"⟩, .oneOrMore (.predicate (.iri "p")), .var ⟨"o"⟩⟩]⟩

/-- The text of a compiled plan need not show all that a result depends on. In this plan, over a
store with a triple to find, operator 9 is the projection at the end of a loop. It feeds the loop,
from which the result 1 is reached, but it is only referred to, and neither it nor the operators 5
to 8 below it are printed. -/
theorem explain_closure_hides_body :
    ∃ (prepared : Prepared) (d : Draft),
      (closureOfPredicate.compile (.ofStore (.insert .empty ⟨none,
        ⟨.iri "a", .iri "p", .iri "b"⟩⟩))).runOn .empty = (.ok prepared, d) ∧
      prepared.plan.graph.results = [1] ∧
      (∀ id ∈ [5, 6, 7, 8, 9], Relation.TransGen prepared.plan.graph.Leads id 1) ∧
      prepared.plan.graph.shown = [1, 4, 2] ∧
      (2, .loop 9) ∈ prepared.plan.graph.outline := by
  generalize hrun : (closureOfPredicate.compile (.ofStore (.insert .empty ⟨none,
    ⟨.iri "a", .iri "p", .iri "b"⟩⟩))).runOn .empty = outcome
  have hfacts : outcome.1.map (fun prepared : Prepared =>
      (prepared.plan.graph.outline, prepared.plan.graph.results :: prepared.plan.graph.shown ::
        [4, 5, 6, 7, 8, 9].map prepared.plan.graph.consumers)) =
      .ok ([(0, .full 1), (1, .full 4), (2, .full 2), (2, .loop 9)],
        [[1], [1, 4, 2], [5, 1], [6], [7], [9], [7], [4]]) := by
    rw [← hrun]
    decide +kernel
  obtain ⟨result, d⟩ := outcome
  cases result with
  | error e => cases hfacts
  | ok prepared =>
      simp only [Except.map, Except.ok.injEq, Prod.mk.injEq, List.map_cons, List.map_nil,
        List.cons.injEq, and_true] at hfacts
      obtain ⟨houtline, hresults, hshown, h4, h5, h6, h7, h8, h9⟩ := hfacts
      have hlead {s t : OperatorId} {l : List OperatorId}
          (h : prepared.plan.graph.consumers s = l) (ht : t ∈ l) :
          prepared.plan.graph.Leads s t := by
        rw [Graph.Leads, Walk.Step, h]
        exact ht
      refine ⟨prepared, d, rfl, hresults, ?_, hshown, by simp [houtline]⟩
      have from9 : Relation.TransGen prepared.plan.graph.Leads 9 1 :=
        .tail (.single (hlead h9 (by simp))) (hlead h4 (by simp))
      have from7 := from9.head (hlead h7 (by simp : 9 ∈ [9]))
      have from6 := from7.head (hlead h6 (by simp : 7 ∈ [7]))
      simp only [List.mem_cons, List.not_mem_nil, or_false, forall_eq_or_imp, forall_eq]
      exact ⟨from6.head (hlead h5 (by simp)), from6, from7, from7.head (hlead h8 (by simp)), from9⟩

end QuadAlgebra
