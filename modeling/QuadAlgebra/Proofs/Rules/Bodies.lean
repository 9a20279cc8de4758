import QuadAlgebra.Proofs.Rules.Drawings
import QuadAlgebra.Proofs.Typing.Patterns

/-!
# Drawings of rule bodies

A rule body is planned like the pattern of a query, but each triple on its own, as the union of a
scan of the stored triples and a matcher of derived ones. By induction on its groups and elements,
what is drawn has the solutions of the body over both (`Group.supplies`), and as a set these are the
solutions that the body lists (`Group.listsSet_solutions`).
-/

namespace QuadAlgebra

/-- A planner of rules over a store in memory. -/
structure Planner.ForRules (p : Planner) : Prop where
  inRules : p.inRules = true
  scans : ∃ dataset known, p.scans = .ofStore dataset known

variable {src : Source} {p : Planner} {draw : DrawInto} {part part' : Part} {c : Cursor}
  {d d' : Draft}

/-! ## Parts -/

/-- A part that has the same solutions and matches a triple only if the other one does. -/
theorem Supplies.congr (h : Supplies src draw part)
    (hanswers : ∀ D, part.answers D = part'.answers D)
    (hmatching : part'.matching = true → part.matching = true) : Supplies src draw part' := by
  intro c d hd hc
  refine (h c d hd hc).mono fun _ d' hsupplied => ?_
  obtain ⟨y, hsupplied⟩ := hsupplied
  obtain ⟨hfinds, -⟩ := List.forall₂_cons.1 hsupplied.finds
  refine ⟨y, hsupplied.tracked, hsupplied.grown, hsupplied.generators, .cons ?_ .nil,
    fun q hq hm => ?_⟩
  · intro limit G R T hcourse hfollows n
    rw [← hanswers]
    exact hfinds limit G R T hcourse hfollows n
  · obtain rfl := List.mem_singleton.1 hq
    exact hsupplied.reached part (List.mem_singleton_self _) (hmatching hm)

@[simp] theorem joinSets_unit_right (A : Set Solution) : joinSets A {∅} = A := by
  ext s
  simp [joinSets]

/-! ## Sources -/

theorem supplies_probe :
    Supplies src (fun c => c.attachSource (.probe none)) ⟨fun _ => {∅}, false⟩ := by
  refine supplies_source (Operator.isBodyPart rfl (by simp [Operator.kind])) ?_
  have hmaps : (Operator.probe none : Operator Plan).Maps src _ := Operator.maps_probe none
  have hmakes := Operator.makes_of_maps (A := {∅}) hmaps
  have hprobe : {s : Solution | ∃ a ∈ ({∅} : Set Solution), ∃ t ∈ src.probe none,
      a.compatible t = true ∧ a.merge t = s} = {∅} := by
    ext s
    constructor
    · rintro ⟨a, rfl, t, ht, -, rfl⟩
      obtain rfl := List.mem_singleton.1 ht
      rfl
    · rintro rfl
      exact ⟨∅, rfl, ∅, List.mem_singleton_self _, by simp, by simp⟩
  rwa [hprobe] at hmakes

/-- A scan of one pattern has its solutions over the stored triples. -/
theorem makes_scan (hp : p.ForRules) (t : TriplePattern) :
    (p.scan [t] none).Makes src [{∅}] (t.answers src.storedTriples) := by
  obtain ⟨dataset, known, hscans⟩ := hp.scans
  have hop : p.scan [t] none = .scan ⟨[t], none, ⟨dataset, true⟩⟩ := by
    rw [Planner.scan, hscans]
    rfl
  have hscan : src.scan ⟨[t], none, ⟨dataset, true⟩⟩ = t.solutions (src.activeTriples none) := by
    refine (scan_eq [t] (List.cons_ne_nil _ _) none _).trans ?_
    rw [List.map_singleton, joinMany_singleton]
  have hmaps : (Operator.scan ⟨[t], none, ⟨dataset, true⟩⟩ : Operator Plan).Maps src _ :=
    Operator.maps_scan _
  have hmakes := Operator.makes_of_maps (A := {∅}) hmaps
  have hanswers : {s : Solution | ∃ a ∈ ({∅} : Set Solution),
      ∃ r ∈ src.scan ⟨[t], none, ⟨dataset, true⟩⟩, a.compatible r = true ∧ a.merge r = s} =
        t.answers src.storedTriples := by
    ext s
    simp [hscan, TriplePattern.solutions, TriplePattern.answers, Source.activeTriples,
      Source.storedTriples]
  rwa [hop, ← hanswers]

theorem TriplePattern.answers_union (t : TriplePattern) (S D : Set Triple) :
    t.answers (S ∪ D) = t.answers S ∪ t.answers D := by
  ext s
  simp [answers, or_and_right, exists_or]

/-- A triple of a rule body has its solutions over stored and derived triples. -/
theorem supplies_ruleTriple (hp : p.ForRules) (t : TriplePattern) :
    Supplies src (ruleTriple p none t) ⟨fun D => t.answers (src.storedTriples ∪ D), true⟩ := by
  have hunion : (Operator.union : Operator Plan).IsBodyPart :=
    (Operator.isBodyPart rfl (by simp [Operator.kind]))
  have hquiet : (p.scan [t] none).IsBodyPart :=
    Operator.isBodyPart rfl (by simp [Planner.scan, Operator.kind])
  have hscan : Supplies src (fun c => c.attachSource (p.scan [t] none))
    ⟨fun _ => t.answers src.storedTriples, false⟩ := supplies_source hquiet (makes_scan hp t)
  have hmatcher : Supplies src _ ⟨t.answers, true⟩ := supplies_matcher t
  unfold ruleTriple
  refine supplies_over [⟨fun _ => t.answers src.storedTriples, false⟩, ⟨t.answers, true⟩] hunion
    (fun u d hd hc => ?_) (fun D => ?_) fun _ => ⟨⟨t.answers, true⟩, by simp, rfl⟩
  · refine (hscan ⟨u, 0⟩ d hd hc).bind fun _ d₁ hscanned => ?_
    obtain ⟨y, hscanned⟩ := hscanned
    have hc' : (Cursor.mk u 1).Open d₁ := hc.grown hd hscanned.grown rfl
    refine (hmatcher ⟨u, 1⟩ d₁ hscanned.tracked hc').mono fun _ d' hmatched => ?_
    obtain ⟨m, hmatched⟩ := hmatched
    exact ⟨[y, m], .cons (hc.lt_size hd) hscanned hmatched⟩
  · have hmakes : Operator.union.Makes src [t.answers src.storedTriples, t.answers D] _ :=
      Operator.makes_union
    have hsets : {s | ∃ A ∈ [t.answers src.storedTriples, t.answers D], s ∈ A} =
        t.answers (src.storedTriples ∪ D) := by
      ext s
      simp [TriplePattern.answers_union]
    rwa [hsets] at hmakes

/-! ## Filters -/

theorem Expression.drawNested_eq_nil {e : Expression} (h : e.hasExistence = false) (p : Planner)
    (graph : Option Item) : e.drawNested p graph = [] := by
  have hnone : e.existencePatterns = [] := by simpa [Expression.hasExistence] using h
  have hlength := (e.drawNested_plans p graph).1
  rw [hnone] at hlength
  exact List.length_eq_zero_iff.1 hlength

/-- A filter without existence patterns keeps the solutions for which its condition holds. -/
theorem supplies_over_filter {e : Expression} (he : e.hasExistence = false)
    (hdraw : Supplies src draw part) :
    Supplies src (fun c => do draw (← p.attachFilter e (e.drawNested p none) c))
      ⟨fun D => {s ∈ part.answers D | e.holds [] s = true}, part.matching⟩ := by
  have hpatterns : e.existencePatterns = [] := by simpa [Expression.hasExistence] using he
  have hover (slot : Option FilterSlot) :
      Supplies src (fun c => do draw (← c.attach (filterOver e [] slot)))
        ⟨fun D => {s ∈ part.answers D | e.holds [] s = true}, part.matching⟩ := by
    refine supplies_over_one (Operator.isBodyPart rfl (by simp [filterOver, Operator.kind])) hdraw
      (fun D => ?_) id
    have hmaps : (Operator.filter ⟨e, [], slot⟩ : Operator Plan).Maps src _ :=
      Operator.maps_filter rfl hpatterns
    have hmakes := Operator.makes_of_maps (A := part.answers D) hmaps
    have hkept : {s | ∃ a ∈ part.answers D, a = s ∧ e.holds [] s = true} =
        {s ∈ part.answers D | e.holds [] s = true} := by
      ext s
      simp
    rwa [hkept] at hmakes
  intro c d hd hc
  refine Edit.ends_bind.2 fun c' d₁ hattach => ?_
  rw [Expression.drawNested_eq_nil he] at hattach
  obtain ⟨plans, d₂, hplans, hattach⟩ := attachFilter_eq_ok hattach
  obtain ⟨rfl, rfl⟩ : [] = plans ∧ d = d₂ := by
    obtain ⟨hok, hsame⟩ := Prod.mk.inj hplans
    exact ⟨Except.ok.inj hok, hsame⟩
  -- the slot that is handed out does not matter
  have hd' : ({ d with nextSlot := d.nextSlot + 1 } : Draft).Tracked :=
    ⟨hd.linked, hd.root, hd.result, hd.forward, hd.quiet, hd.matchers, hd.unfed, hd.atomHeads⟩
  refine (Edit.ends_bind.1 (hover _ c _ hd' ⟨hc.operator⟩) c' d₁ hattach).mono
    fun _ d' hsupplied => ?_
  obtain ⟨y, hsupplied⟩ := hsupplied
  exact ⟨y, hsupplied.tracked, ⟨hsupplied.grown.size_le, hsupplied.grown.operator?,
    hsupplied.grown.reads⟩, hsupplied.generators, hsupplied.finds, hsupplied.reached⟩

/-! ## Segments -/

/-- A segment of a rule body holds drawings whose solutions, joined, are those of a part. -/
structure Segment.Gathers (src : Source) (s : Segment) (part : Part) : Prop where
  closed : s.closed = none
  triples : s.triples = []
  others : ∃ parts : List Part, List.Forall₂ (Supplies src) s.others parts ∧
    (∀ D, part.answers D = (parts.map fun q => q.answers D).foldl joinSets {∅}) ∧
      (part.matching = true → ∃ q ∈ parts, q.matching = true)

namespace Segment.Gathers

variable {s : Segment}

theorem start : Segment.start.Gathers src ⟨fun _ => {∅}, false⟩ :=
  ⟨rfl, rfl, [], .nil, fun _ => rfl, nofun⟩

theorem scope (h : s.Gathers src part) (vars : VarSet) :
    Segment.Gathers src { s with scope := vars } part := ⟨h.closed, h.triples, h.others⟩

theorem addOther (h : s.Gathers src part) (hdraw : Supplies src draw part') :
    (s.addOther draw).Gathers src ⟨fun D => joinSets (part.answers D) (part'.answers D),
      part.matching || part'.matching⟩ := by
  obtain ⟨parts, hothers, hanswers, hmatching⟩ := h.others
  refine ⟨h.closed, h.triples, parts ++ [part'], ?_, fun D => ?_, fun hm => ?_⟩
  · exact List.rel_append hothers (.cons hdraw .nil)
  · simp [hanswers]
  · rcases Bool.or_eq_true_iff.1 hm with hm | hm
    · exact (hmatching hm).imp fun q hq => hq.imp_left (List.mem_append_left _)
    · exact ⟨part', by simp, hm⟩

/-- A segment draws what it gathers. -/
theorem supplies (h : s.Gathers src part) : Supplies src (s.draw p none) part := by
  obtain ⟨parts, hothers, hanswers, hmatching⟩ := h.others
  have hpartners : s.closed.toList ++ (if s.triples.isEmpty then []
      else [fun c : Cursor => c.attachSource (p.scan s.triples none)]) ++ s.others = s.others := by
    rw [h.closed, h.triples]
    rfl
  unfold Segment.draw
  simp only [hpartners]
  generalize s.others = partners at hothers
  cases hothers with
  | nil =>
      refine supplies_probe.congr (fun D => (hanswers D).symm) fun hm => ?_
      obtain ⟨q, hq, -⟩ := hmatching hm
      exact absurd hq List.not_mem_nil
  | cons hfirst hrest =>
      cases hrest with
      | nil =>
          refine hfirst.congr (fun D => ?_) fun hm => ?_
          · simp [hanswers]
          · obtain ⟨q, hq, hm⟩ := hmatching hm
            exact List.mem_singleton.1 hq ▸ hm
      | cons hsecond hrest =>
          refine supplies_over_all (Operator.isBodyPart rfl (by simp [Operator.kind]))
            (.cons hfirst (.cons hsecond hrest)) (fun D => ?_) hmatching
          rw [hanswers]
          exact Operator.makes_join (List.cons_ne_nil _ _)

end Segment.Gathers

/-! ## Groups -/

/-- The part of a body that a group is. -/
def Group.bodyPart (src : Source) (g : Group) : Part :=
  ⟨fun D => g.answers (src.storedTriples ∪ D), g.matchesTriple⟩

/-- The part of a body that some branches are. -/
def groupsPart (src : Source) (groups : List Group) : Part :=
  ⟨fun D => groupsAnswers (src.storedTriples ∪ D) groups, groupsMatch groups⟩

theorem mem_groupsAnswers {S : Set Triple} {groups : List Group} {s : Solution} :
    s ∈ groupsAnswers S groups ↔ ∃ g ∈ groups, s ∈ g.answers S := by
  induction groups with
  | nil => simp [groupsAnswers]
  | cons g rest ih => simp [groupsAnswers, ih]

theorem groupsMatch_eq_any (groups : List Group) :
    groupsMatch groups = groups.any (·.matchesTriple) := by
  induction groups with
  | nil => rfl
  | cons g rest ih => rw [groupsMatch, ih, List.any_cons]

/-- Several branches are drawn below a union. -/
theorem supplies_union (part : Part) {draws : List DrawInto} {parts : List Part} :
    List.Forall₂ (Supplies src) draws parts → parts ≠ [] →
      (∀ D, {s | ∃ q ∈ parts, s ∈ q.answers D} = part.answers D) →
      (part.matching = true → ∃ q ∈ parts, q.matching = true) →
      Supplies src (fun c =>
        match draws with
        | [] => c.attachSource (.probe none)
        | [branch] => branch c
        | several => do
          let union ← c.attach .union
          several.zipIdx.forM fun (branch, operand) => branch (union.sibling operand)) part := by
  intro hdraws hne hanswers hmatching
  cases hdraws with
  | nil => exact absurd rfl hne
  | cons hfirst hrest =>
      cases hrest with
      | nil =>
          refine hfirst.congr (fun D => ?_) fun hm => by simpa using hmatching hm
          simp [← hanswers]
      | cons hsecond hrest =>
          refine supplies_over_all (Operator.isBodyPart rfl (by simp [Operator.kind]))
            (.cons hfirst (.cons hsecond hrest)) (fun D => ?_) hmatching
          refine (congrArg (Operator.Makes src .union _) ?_).mp Operator.makes_union
          rw [← hanswers]
          ext s
          simp

mutual

/-- What is drawn of a group has its solutions over stored and derived triples. -/
theorem Group.supplies (hp : p.ForRules) : ∀ g : Group, g.isBody = true →
    Supplies src (g.draw p none) (g.bodyPart src)
  | ⟨elements⟩, hbody => by
    have hgathers := drawElements_gathers hp elements hbody .start
    exact (supplies_drawFilters hp elements hbody hgathers.supplies).congr
      (fun D => (Group.answers.eq_1 _ elements).symm) fun hm => hm

theorem supplies_drawFilters (hp : p.ForRules) : ∀ (elements : List Element),
    elementsBody elements = true → ∀ {draw : DrawInto} {part : Part}, Supplies src draw part →
      Supplies src (fun c => do draw (← drawFilters p none elements c))
        ⟨fun D => {s ∈ part.answers D | ∀ e, Element.filter e ∈ elements → e.holds [] s = true},
          part.matching⟩
  | [], _, draw, part, hdraw => by
    refine hdraw.congr (fun D => ?_) id
    simp
  | e :: rest, hbody, draw, part, hdraw => by
    rw [elementsBody, Bool.and_eq_true] at hbody
    have hbelow := supplies_drawFilters hp rest hbody.2 hdraw
    cases e with
    | filter e =>
        have he : e.hasExistence = false := by simpa [Element.isBody] using hbody.1
        have hassoc : (fun c => do draw (← drawFilters p none (.filter e :: rest) c)) =
            (fun c => do
              let c ← p.attachFilter e (e.drawNested p none) c
              draw (← drawFilters p none rest c)) := by
          funext c
          rw [drawFilters, bind_assoc]
        rw [hassoc]
        refine (supplies_over_filter he hbelow).congr (fun D => ?_) id
        ext s
        simp [and_assoc, and_comm]
    | _ =>
        refine hbelow.congr (fun D => ?_) id
        simp

theorem drawElements_gathers (hp : p.ForRules) : ∀ (elements : List Element),
    elementsBody elements = true → ∀ {s : Segment} {part : Part}, s.Gathers src part →
      (drawElements p none elements s).Gathers src
        ⟨fun D => elementsAnswers (src.storedTriples ∪ D) elements (part.answers D),
          part.matching || elementsMatch elements⟩
  | [], _, s, part, hs => by
    rw [elementsMatch, Bool.or_false]
    exact hs
  | e :: rest, hbody, s, part, hs => by
    rw [elementsBody, Bool.and_eq_true] at hbody
    have hstep := e.draw_gathers hp hbody.1 hs
    rw [elementsMatch, ← Bool.or_assoc]
    exact drawElements_gathers hp rest hbody.2 (hstep.scope _)

/-- An element makes a segment gather the solutions that the element makes of its own. -/
theorem Element.draw_gathers (hp : p.ForRules) : ∀ (e : Element), e.isBody = true →
    ∀ {s : Segment} {part : Part}, s.Gathers src part →
      (e.draw p none s).Gathers src
        ⟨fun D => e.answers (src.storedTriples ∪ D) (part.answers D),
          part.matching || e.matchesTriple⟩
  | .triple t, _, s, part, hs => by
    rw [Element.draw, if_pos hp.inRules]
    exact hs.addOther (supplies_ruleTriple hp t)
  | .path ⟨subject, path, object⟩, hbody, s, part, hs => by
    obtain ⟨iri, hiri⟩ := Option.isSome_iff_exists.1 hbody
    simp only [Element.draw, Segment.addPath, Element.answers, Element.matchesTriple] at hiri ⊢
    simp only [hiri, if_pos hp.inRules, Option.isSome_some]
    exact hs.addOther (supplies_ruleTriple hp _)
  | .group g, hbody, s, part, hs => hs.addOther (g.supplies hp hbody)
  | .union [], _, s, part, hs => by
    have hunit := hs.addOther supplies_probe
    simp only [joinSets_unit_right] at hunit
    exact hunit
  | .union (g :: rest), hbody, s, part, hs => by
    refine hs.addOther (supplies_union (groupsPart src (g :: rest))
      (drawBranches_supplies hp (g :: rest) hbody) (List.cons_ne_nil _ _) (fun D => ?_)
      fun hm => ?_)
    · ext s
      simp [groupsPart, Group.bodyPart, mem_groupsAnswers]
    · simpa [groupsPart, Group.bodyPart, groupsMatch_eq_any] using hm
  | .filter e, _, s, part, hs => by
    have hno : (Element.filter e).matchesTriple = false := rfl
    rw [hno, Bool.or_false]
    exact hs

theorem drawBranches_supplies (hp : p.ForRules) : ∀ (branches : List Group),
    groupsBody branches = true →
      List.Forall₂ (Supplies src) (drawBranches p none branches) (branches.map (Group.bodyPart src))
  | [], _ => .nil
  | g :: rest, hbody => by
    rw [groupsBody, Bool.and_eq_true] at hbody
    exact .cons (g.supplies hp hbody.1) (drawBranches_supplies hp rest hbody.2)

end

/-! ## Stored triples alone -/

theorem listsSet_solutions (t : TriplePattern) :
    ListsSet (t.solutions (src.activeTriples none)) (t.answers src.storedTriples) := fun s => by
  rw [TriplePattern.solutions, List.mem_filterMap]
  exact exists_congr fun u => and_congr_left fun _ => OrdSet.mem_toList

theorem filtersHold_iff {elements : List Element} (hbody : elementsBody elements = true)
    (s : Solution) : filtersHold src none elements s = true ↔
      ∀ e, Element.filter e ∈ elements → e.holds [] s = true := by
  induction elements with
  | nil => simp [filtersHold]
  | cons first rest ih =>
      rw [elementsBody, Bool.and_eq_true] at hbody
      cases first with
      | filter e =>
          have he : e.existencePatterns = [] := by
            simpa [Element.isBody, Expression.hasExistence] using hbody.1
          have hholds : e.holds [] s =
              ((e.meaning src none s).bind Term.effectiveBool?).getD false := by
            have hnone : FoundFor src none [] e.existencePatterns := he ▸ .nil
            rw [Expression.holds, e.value_eq_meaning [] hnone]
          rw [filtersHold, ← hholds, Bool.and_eq_true, ih hbody.2]
          simp
      | _ => simpa [filtersHold] using ih hbody.2

mutual

/-- Over the stored triples a body has the solutions of the same pattern in a query. -/
theorem Group.listsSet_solutions : ∀ g : Group, g.isBody = true →
    ListsSet (g.solutions src none) (g.answers src.storedTriples)
  | ⟨elements⟩, hbody => fun s => by
    rw [Group.solutions, Group.answers, List.mem_filter, filtersHold_iff hbody]
    refine and_congr_left fun _ => elementsExtend_listsSet elements hbody (fun s => ?_) s
    simp

theorem elementsExtend_listsSet : ∀ elements : List Element, elementsBody elements = true →
    ∀ {rows : List Solution} {A : Set Solution}, ListsSet rows A →
      ListsSet (elementsExtend src none elements rows)
        (elementsAnswers src.storedTriples elements A)
  | [], _, _, _, hrows => hrows
  | e :: rest, hbody, _, _, hrows => by
    rw [elementsBody, Bool.and_eq_true] at hbody
    exact elementsExtend_listsSet rest hbody.2 (e.extend_listsSet hbody.1 hrows)

theorem Element.extend_listsSet : ∀ e : Element, e.isBody = true →
    ∀ {rows : List Solution} {A : Set Solution}, ListsSet rows A →
      ListsSet (e.extend src none rows) (e.answers src.storedTriples A)
  | .triple t, _, _, _, hrows => listsSet_joinSolutions hrows (listsSet_solutions t)
  | .path ⟨_, .predicate _, _⟩, _, _, _, hrows =>
    listsSet_joinSolutions hrows (listsSet_solutions _)
  | .group g, hbody, _, _, hrows => listsSet_joinSolutions hrows (g.listsSet_solutions hbody)
  | .union [], _, _, _, hrows => hrows
  | .union (g :: rest), hbody, _, _, hrows => by
    rw [Element.isBody, groupsBody, Bool.and_eq_true] at hbody
    refine listsSet_joinSolutions hrows fun s => ?_
    rw [List.mem_append, g.listsSet_solutions hbody.1 s, groupsSolutions_listsSet rest hbody.2 s]
    rfl
  | .filter _, _, _, _, hrows => hrows

theorem groupsSolutions_listsSet : ∀ groups : List Group, groupsBody groups = true →
    ListsSet (groupsSolutions src none groups) (groupsAnswers src.storedTriples groups)
  | [], _ => fun s => by simp [groupsSolutions, groupsAnswers]
  | g :: rest, hbody => fun s => by
    rw [groupsBody, Bool.and_eq_true] at hbody
    rw [groupsSolutions, List.mem_append, g.listsSet_solutions hbody.1 s,
      groupsSolutions_listsSet rest hbody.2 s]
    rfl

end

end QuadAlgebra
