import QuadAlgebra.Proofs.Agreement.Grades

/-!
# Graphs that mirror others

Whatever traces the rows of a graph can be turned, round by round, into what traces the rows of the
graph that a rule makes of it, with the same rows for its results (`Graph.Mirrors`). This module
says what that takes. The levels of the operators carry over if each operator of the new graph plays
the part of one of the old graph (`Graph.Graded.along`), and an operator that stays emits what it
did if others stand in for what it has read (`Graph.Traced.transfer`, `Graph.inputs_perm_flatMap`).

Three rules are settled here: those that put an operator in the place of another one that emits the
same, and the splicing of unions.
-/

namespace QuadAlgebra

open List (Perm)

namespace Graph

/-! ## Edges that are replaced -/

section Edges

variable {γ : Type} {g g' : Graph γ} {x u : OperatorId}

/-- The inputs of an operator are given by what is read in the place of each of its former
inputs. -/
theorem inputs_perm_flatMap (h : g.Symmetric) (h' : g'.Symmetric) {f : Input → List Input}
    (hnodup : ∀ i, (f i).Nodup)
    (hapart : ∀ i j, g.Reads x i → g.Reads x j → ∀ l ∈ f i, l ∈ f j → i = j)
    (hreads : ∀ l, g'.Reads x l ↔ ∃ i, g.Reads x i ∧ l ∈ f i) :
    (g'.inputs x).Perm ((g.inputs x).flatMap f) := by
  refine (List.perm_ext_iff_of_nodup (h'.inputs_spec x).1
    (List.nodup_flatMap.2 ⟨fun i _ => hnodup i, ?_⟩)).2 fun l => ?_
  · refine (h.inputs_spec x).1.imp_of_mem fun {i j} hi hj hne l hli hlj => hne ?_
    exact hapart i j (h.linked.mem_inputs.1 hi) (h.linked.mem_inputs.1 hj) l hli hlj
  · rw [h'.linked.mem_inputs, List.mem_flatMap]
    refine (hreads l).trans (exists_congr fun i => and_congr_left' ?_)
    exact h.linked.mem_inputs.symm

/-- What is read in the place of an input: others in the place of the operator, each over an edge
that may be a feedback edge, or just the input. -/
def detours (u : OperatorId) (others : List (OperatorId × Bool)) (i : Input) : List Input :=
  if i.source = u then others.map fun o => ⟨o.1, i.operand, o.2 || i.feedback⟩ else [i]

theorem detours_of_ne {others : List (OperatorId × Bool)} {i : Input} (hi : i.source ≠ u) :
    detours u others i = [i] := if_neg hi

theorem detours_of_eq {others : List (OperatorId × Bool)} {i : Input} (hi : i.source = u) :
    detours u others i = others.map fun o => ⟨o.1, i.operand, o.2 || i.feedback⟩ := if_pos hi

theorem operand_of_mem_detours {others : List (OperatorId × Bool)} {i j : Input}
    (hj : j ∈ detours u others i) : j.operand = i.operand := by
  unfold detours at hj
  split at hj
  · obtain ⟨o, -, rfl⟩ := List.mem_map.1 hj
    rfl
  · rw [List.mem_singleton.1 hj]

/-- If others are read in the place of an operator that is read over a single edge, then these are
the new inputs. -/
theorem inputs_perm_detours (h : g.Symmetric) (h' : g'.Symmetric)
    {others : List (OperatorId × Bool)} (hnodup : (others.map Prod.fst).Nodup)
    (honce : ∀ i j, g.Reads x i → g.Reads x j → i.source = u → j.source = u → i = j)
    (hfresh : ∀ i j, g.Reads x i → g.Reads x j → i.source = u → j.source ≠ u →
      j.source ∉ others.map Prod.fst)
    (hreads : ∀ l, g'.Reads x l ↔ (g.Reads x l ∧ l.source ≠ u) ∨ ∃ i, g.Reads x i ∧ i.source = u ∧
      ∃ o ∈ others, l = ⟨o.1, i.operand, o.2 || i.feedback⟩) :
    (g'.inputs x).Perm ((g.inputs x).flatMap (detours u others)) := by
  have hmem {i l : Input} : l ∈ detours u others i ↔ (i.source ≠ u ∧ l = i) ∨
      i.source = u ∧ ∃ o ∈ others, l = ⟨o.1, i.operand, o.2 || i.feedback⟩ := by
    unfold detours
    split
    · next hi => simp [hi, eq_comm]
    · next hi => simp [hi]
  refine inputs_perm_flatMap h h' (fun i => ?_) (fun i j hi hj l hli hlj => ?_) fun l => ?_
  · unfold detours
    split
    · refine List.Nodup.of_map Input.source ?_
      rw [List.map_map]
      exact hnodup
    · exact List.nodup_singleton i
  · have hold {i j : Input} (hi : g.Reads x i) (hj : g.Reads x j) (hiu : i.source = u)
        (hju : j.source ≠ u) (o : OperatorId × Bool) (ho : o ∈ others)
        (hlj : j = ⟨o.1, i.operand, o.2 || i.feedback⟩) : False :=
      hfresh i j hi hj hiu hju (by rw [hlj]; exact List.mem_map_of_mem ho)
    rcases hmem.1 hli with ⟨hiu, rfl⟩ | ⟨hiu, o, ho, hlo⟩
    · rcases hmem.1 hlj with ⟨-, rfl⟩ | ⟨hju, o, ho, hlo⟩
      · rfl
      · exact (hold hj hi hju hiu o ho hlo).elim
    · rcases hmem.1 hlj with ⟨hju, rfl⟩ | ⟨hju, -⟩
      · exact (hold hi hj hiu hju o ho hlo).elim
      · exact honce i j hi hj hiu hju
  · rw [hreads]
    constructor
    · rintro (⟨hl, hu⟩ | ⟨i, hi, hiu, ho⟩)
      · exact ⟨l, hl, hmem.2 (.inl ⟨hu, rfl⟩)⟩
      · exact ⟨i, hi, hmem.2 (.inr ⟨hiu, ho⟩)⟩
    · rintro ⟨i, hi, hl⟩
      rcases hmem.1 hl with ⟨hu, rfl⟩ | ⟨hiu, ho⟩
      · exact .inl ⟨hi, hu⟩
      · exact .inr ⟨i, hi, hiu, ho⟩

end Edges

/-! ## Threads -/

section Threads

variable {γ : Type} {g : Graph γ} {shapes : Shapes} {ops ops' : OperatorId → Option (Operator γ)}
  {reads reads' : OperatorId → Input → Prop} {x y : OperatorId} {i j : Input} {op : Operator γ}

/-- Only what removes duplicates is read by renamings. -/
theorem Regular.not_renames (h : g.Regular false shapes) (hi : g.Reads x i)
    (hop : g.operator? i.source = some op) (hkind : op.kind ∉ Operator.deduplicating) :
    ¬ Renames g.operator? x := by
  rintro ⟨r, hr⟩
  exact hkind (h.renamed x _ i op hr rfl hi hop)

/-- What does not remove duplicates is read over a single edge, unless it is the root. -/
theorem Regular.once (h : g.Regular false shapes) (hthreads : Threads g.operator? g.Reads)
    (hi : g.Reads x i) (hj : g.Reads y j) (hsource : i.source = j.source)
    (hop : g.operator? i.source = some op) (hkind : op.kind ∉ Operator.deduplicating)
    (hroot : op.kind ≠ .root) : x = y ∧ i = j := by
  refine hthreads.single x i y j hi hj hsource (fun he => hroot ?_) (h.not_renames hi hop hkind)
    (h.not_renames hj (hsource ▸ hop) hkind)
  rw [he, h.root] at hop
  rw [← Option.some.inj hop]
  rfl

/-- Edges do not lead to several operators if each comes from an edge of a graph where they do
not. -/
theorem Threads.single_of_origin (h : Threads ops reads) (part : OperatorId → OperatorId)
    (origin : OperatorId → Input → OperatorId → Input → Prop)
    (horigin : ∀ x i, reads' x i → i.source ≠ Graph.root → ¬ Renames ops' x → ∃ y j,
      origin x i y j ∧ reads y j ∧ j.source = part i.source ∧ j.source ≠ Graph.root ∧
        ¬ Renames ops y)
    (hunique : ∀ x i x' i' y j, origin x i y j → origin x' i' y j → i.source = i'.source →
      x = x' ∧ i = i') :
    ∀ x i y j, reads' x i → reads' y j → i.source = j.source → i.source ≠ Graph.root →
      ¬ Renames ops' x → ¬ Renames ops' y → x = y ∧ i = j := by
  intro x i x' i' hi hi' hsource hroot hx hx'
  obtain ⟨y, j, ho, hj, hpart, hne, hy⟩ := horigin x i hi hroot hx
  obtain ⟨y', j', ho', hj', hpart', -, hy'⟩ := horigin x' i' hi' (hsource ▸ hroot) hx'
  obtain ⟨rfl, rfl⟩ := h.single y j y' j' hj hj' (by rw [hpart, hpart', hsource]) hne hy hy'
  exact hunique x i x' i' y j ho ho' hsource

end Threads

/-! ## Levels -/

section Levels

variable {γ : Type} {g g' : Graph γ} {level : OperatorId → Precision} {x y s : OperatorId}

/-- An operator reads another one, or it reads what in turn reads that one and does not remove
duplicates. -/
inductive Feeds (g : Graph γ) : OperatorId → OperatorId → Prop
  | direct {x : OperatorId} {i : Input} (hi : g.Reads x i) : Feeds g i.source x
  | through {x : OperatorId} {i j : Input} {op : Operator γ} (hi : g.Reads x i)
    (hop : g.operator? i.source = some op) (hkind : op.kind ∉ Operator.deduplicating)
    (hj : g.Reads i.source j) : Feeds g j.source x

theorem Feeds.of_source {i : Input} (hi : g.Reads x i) (hs : i.source = s) : g.Feeds s x :=
  hs ▸ .direct hi

theorem Feeds.leads (h : g.Linked) (hfeeds : g.Feeds s x) : Relation.TransGen g.Leads s x := by
  cases hfeeds with
  | direct hi => exact .single ((leads_iff h).2 ⟨_, hi, rfl⟩)
  | through hi _ _ hj =>
      exact .tail (.single ((leads_iff h).2 ⟨_, hj, rfl⟩)) ((leads_iff h).2 ⟨_, hi, rfl⟩)

/-- The level of an operator demands nothing that those before it do not give. -/
theorem Graded.demand_le (h : g.Graded level) {op : Operator γ} (hop : g.operator? x = some op)
    (hfeeds : g.Feeds s x) : op.demand (level x) ≤ level s := by
  cases hfeeds with
  | direct hi => exact h.demands x op _ hop hi
  | @through _ i j opᵢ hi hopᵢ hkind hj =>
      refine (h.demands x op i hop hi).trans ?_
      have hdemand := h.demands i.source opᵢ j hopᵢ hj
      rwa [Operator.demand_eq, if_neg hkind] at hdemand

/-- Operators on loops play the parts of operators on loops. -/
theorem OnLoop.along (h : g.Linked) (h' : g'.Linked) (part : OperatorId → OperatorId)
    (hfeeds : ∀ x i, g'.Reads x i → g.Feeds (part i.source) (part x)) (hx : g'.OnLoop x) :
    g.OnLoop (part x) := by
  refine Relation.TransGen.lift' part (fun s y hsy => ?_) x x hx
  obtain ⟨i, hi, rfl⟩ := (leads_iff h').1 hsy
  exact (hfeeds y i hi).leads h

/-- A graph is graded if each of its operators plays the part of one of a graded graph, and reads
what plays the part of something that this one depends on. -/
theorem Graded.along (h : g.Graded level) (h' : g'.Threaded) (part : OperatorId → OperatorId)
    (hroot : part Graph.root = Graph.root)
    (hfills : ∀ x op', g'.operator? x = some op' →
      ∃ op, g.operator? (part x) = some op ∧ op'.Fills op)
    (hfeeds : ∀ x i, g'.Reads x i → g.Feeds (part i.source) (part x)) :
    g'.Graded fun x => level (part x) where
  toThreaded := h'
  bears x op' hop' := by
    obtain ⟨op, hop, hfill⟩ := hfills x op' hop'
    exact hfill.bears _ (h.bears _ op hop)
  demands x op' i hop' hi := by
    obtain ⟨op, hop, hfill⟩ := hfills x op' hop'
    rw [hfill.demand]
    exact h.demand_le hop (hfeeds x i hi)
  looped x op' hop' hloop := by
    obtain ⟨op, hop, hfill⟩ := hfills x op' hop'
    exact (h.looped (part x) op hop (hloop.along h.symmetric.linked h'.symmetric.linked part
      hfeeds)).imp_right fun hlevel => ⟨hlevel.1, hfill.deduplicating.2 hlevel.2⟩
  root := by rw [hroot, h.root]

end Levels

/-! ## Mirrors -/

/-- What traces the rows of the first graph has a counterpart for the second one, which follows it
round by round and has the same rows for results. The second graph has no loops if the first one has
none. -/
structure Mirrors (G G' : Graph Plan) (src : Source) (limit : Nat)
    (level level' : OperatorId → Precision)
    (E E' : History) : Prop where
  graded : G'.Graded level'
  traced : G'.Traced src limit level' E'
  loops : ∀ x, G'.OnLoop x → ∃ y, G.OnLoop y
  follows : ∀ m n, E m = E n → E' m = E' n
  results : ∀ x form, G'.operator? x = some (.result form) ↔ G.operator? x = some (.result form)
  shown : ∀ x form, G.operator? x = some (.result form) → level' x = level x ∧ ∀ n, E' n x = E n x

namespace Mirrors

variable {G G' G'' : Graph Plan} {src : Source} {limit : Nat}
  {level level' level'' : OperatorId → Precision} {E E' E'' : History}

theorem trans (h : G.Mirrors G' src limit level level' E E')
    (h' : G'.Mirrors G'' src limit level' level'' E' E'') :
    G.Mirrors G'' src limit level level'' E E'' where
  graded := h'.graded
  traced := h'.traced
  loops x hx :=
    have ⟨y, hy⟩ := h'.loops x hx
    h.loops y hy
  follows m n hmn := h'.follows m n (h.follows m n hmn)
  results x form := (h'.results x form).trans (h.results x form)
  shown x form hx := by
    obtain ⟨hlevel, hrows⟩ := h.shown x form hx
    obtain ⟨hlevel', hrows'⟩ := h'.shown x form ((h.results x form).2 hx)
    exact ⟨hlevel'.trans hlevel, fun n => (hrows' n).trans (hrows n)⟩

end Mirrors

/-! ## Operators that do the same work -/

section Likened

variable {γ : Type} {ops ops' : OperatorId → Option (Operator γ)}
  {reads reads' : OperatorId → Input → Prop}

/-- Fewer edges between operators that do the same work are threaded. -/
theorem Threads.thinned (h : Threads ops reads) (hreads : ∀ x i, reads' x i → reads x i)
    (hops : ∀ x i, reads' x i → ∃ op op', ops x = some op ∧ ops' x = some op' ∧ op'.Like op) :
    Threads ops' reads' where
  single x i y j hi hj hsource hroot hx hy := by
    have hrenames {x : OperatorId} {i : Input} (hi : reads' x i) (hx : ¬ Renames ops' x) :
        ¬ Renames ops x := by
      rintro ⟨r, hr⟩
      obtain ⟨op, op', hop, hop', hlike⟩ := hops x i hi
      obtain rfl := Option.some.inj (hop.symm.trans hr)
      cases hlike
      exact hx ⟨r, hop'⟩
    exact h.single x i y j (hreads x i hi) (hreads y j hj) hsource hroot (hrenames hi hx)
      (hrenames hj hy)
  sources x i hi hroot := by
    obtain ⟨hinput, op₁, hop₁, hkind⟩ := h.sources x i (hreads x i hi) hroot
    obtain ⟨op, op', hop, hop', hlike⟩ := hops x i hi
    obtain rfl := Option.some.inj (hop₁.symm.trans hop)
    refine ⟨hinput, op', hop', ?_⟩
    cases hlike with
    | same => exact hkind
    | _ => simp [Operator.kind] at hkind
  operands x i op₁ hi hop₁ hkind := by
    obtain ⟨op, op', hop, hop', hlike⟩ := hops x i hi
    obtain rfl := Option.some.inj (hop₁.symm.trans hop')
    refine h.operands x i op (hreads x i hi) hop ?_
    cases hlike with
    | same => exact hkind
    | _ => simp [Operator.kind, spread]

end Likened

section Mirrored

variable {G G' : Graph Plan} {src : Source} {limit : Nat} {level : OperatorId → Precision}
  {E : History}

/-- Operators may be put in the place of others that do the same work. -/
theorem Traced.recast (h : G.Graded level) (hE : G.Traced src limit level E)
    (recast : OperatorId → Operator Plan → Operator Plan)
    (hlike : ∀ x op, G.operator? x = some op → (recast x op).Like op ∧ ∀ operands rows,
      (op.opened src limit).emit src x operands = .ok rows →
        ((recast x op).opened src limit).emit src x operands = .ok rows)
    (hops : ∀ x, G'.operator? x = (G.operator? x).map (recast x))
    (hreads : ∀ x i, G'.Reads x i ↔ G.Reads x i) (hsymmetric : G'.Symmetric) :
    G.Mirrors G' src limit level level E E := by
  have hold {x : OperatorId} {op' : Operator Plan} (hop' : G'.operator? x = some op') :
      ∃ op, G.operator? x = some op ∧ op' = recast x op := by
    rw [hops] at hop'
    obtain ⟨op, hop, rfl⟩ := Option.map_eq_some_iff.1 hop'
    exact ⟨op, hop, rfl⟩
  have hinputs (x : OperatorId) : (G'.inputs x).Perm ((G.inputs x).flatMap fun i => [i]) :=
    inputs_perm_flatMap h.symmetric hsymmetric (fun _ => List.nodup_singleton _)
      (fun i j _ _ l hi hj => (List.mem_singleton.1 hi).symm.trans (List.mem_singleton.1 hj))
      fun l => by simp [hreads]
  have hfeeds (x : OperatorId) (i : Input) (hi : G'.Reads x i) : G.Feeds i.source x :=
    .direct ((hreads x i).1 hi)
  refine ⟨?graded, ⟨hE.zero, fun n x op' hop' => ?step⟩,
    fun x hx => ⟨x, hx.along h.symmetric.linked hsymmetric.linked id hfeeds⟩, fun _ _ => id,
    fun x form => ?results, fun _ _ _ => ⟨rfl, fun _ => rfl⟩⟩
  case graded =>
    refine h.along ⟨hsymmetric, h.threads.thinned (fun x i hi => (hreads x i).1 hi)
      fun x i hi => ?_⟩ id rfl (fun x op' hop' => ?_) hfeeds
    · obtain ⟨op', hop'⟩ := exists_operator?_of_reads hsymmetric.linked hi
      obtain ⟨op, hop, rfl⟩ := hold hop'
      exact ⟨op, _, hop, hop', (hlike x op hop).1⟩
    · obtain ⟨op, hop, rfl⟩ := hold hop'
      exact ⟨op, hop, (hlike x op hop).1.fills⟩
  case step =>
    obtain ⟨op, hop, rfl⟩ := hold hop'
    have hread (i : Input) (_ : i ∈ G.inputs x) :
        (level i.source).Agree (E.over n i) ([i].flatMap (E.over n)) := by
      rw [List.flatMap_singleton]
      exact .refl _ _
    obtain ⟨rows, hrows, hagree⟩ := hE.transfer h hop (hinputs x) (by simp)
      (fun _ i hi => ⟨i, (hinputs x).mem_iff.2 (by simpa using hi), rfl⟩) hread
    exact ⟨rows, (hlike x op hop).2 _ _ hrows, hagree⟩
  case results =>
    rw [hops]
    cases hop : G.operator? x with
    | none => simp
    | some op =>
        rw [Option.map_some, Option.some_inj, Option.some_inj]
        generalize hop' : recast x op = op'
        have := hop' ▸ (hlike x op hop).1
        cases this <;> simp

/-- Nothing but the operators and edges matters. -/
theorem Traced.rewired (h : G.Graded level) (hE : G.Traced src limit level E)
    (hops : ∀ x, G'.operator? x = G.operator? x) (hreads : ∀ x i, G'.Reads x i ↔ G.Reads x i)
    (hsymmetric : G'.Symmetric) : G.Mirrors G' src limit level level E E :=
  hE.recast h (fun _ op => op) (fun _ op _ => ⟨.same op, fun _ _ => id⟩)
    (fun x => by simp [hops]) hreads hsymmetric

/-- An operator may be put in the place of another one that does the same work. -/
theorem Traced.likened (h : G.Graded level) (hE : G.Traced src limit level E) {u : OperatorId}
    {op op' : Operator Plan} (hop : G.operator? u = some op) (hlike : op'.Like op)
    (hwired : G'.Wired G.slots.length (fun x => if x = u then some op' else G.operator? x) G.Reads)
    (hsymmetric : G'.Symmetric) (hemit : ∀ operands,
      (op'.opened src limit).emit src u operands = (op.opened src limit).emit src u operands) :
    G.Mirrors G' src limit level level E E := by
  refine hE.recast h (fun x op₁ => if x = u then op' else op₁) (fun x op₁ hop₁ => ?_)
    (fun x => ?_) hwired.reads hsymmetric
  · split
    · next hx =>
      subst hx
      obtain rfl := Option.some.inj (hop.symm.trans hop₁)
      exact ⟨hlike, fun operands rows hrows => (hemit operands).trans hrows⟩
    · exact ⟨.same op₁, fun _ _ => id⟩
  · rw [hwired.operator?]
    split
    · next hx => rw [hx, hop]; rfl
    · simp

end Mirrored

/-! ## Unions that make place -/

section Splices

variable {γ : Type} {g g' : Graph γ} {shapes : Shapes} {level : OperatorId → Precision}
  {u x : OperatorId} {i : Input}

/-- What others read in the place of a union is what the union reads. -/
theorem SpliceSite.threads (h : g.Threaded) (hregular : g.Regular false shapes)
    (hsite : g.SpliceSite u)
    (hwired : g'.Wired g.slots.length (fun x => if x = u then none else g.operator? x)
      (splicedReads g.Reads u)) : Threads g'.operator? g'.Reads := by
  have hops (x : OperatorId) (hx : x ≠ u) : g'.operator? x = g.operator? x := by
    rw [hwired.operator?, if_neg hx]
  have hreader {x : OperatorId} {k : Nat} {f : Bool} (hx : g.Reads x ⟨u, k, f⟩) : x ≠ u := by
    obtain ⟨i, hi⟩ := hsite.fed
    exact (hsite.apart i x hi _ hx rfl).1
  refine ⟨h.threads.single_of_origin id (fun x i y j => (y = x ∧ j = i ∧ x ≠ u) ∨
    y = u ∧ ∃ f, g.Reads x ⟨u, i.operand, f⟩ ∧ i = ⟨j.source, i.operand, j.feedback || f⟩)
    (fun x i hi hroot hx => ?origin) (fun x i x' i' y j ho ho' hsource => ?unique),
    fun x i hi hroot => ?sources, fun x i op hi hop hkind => ?operands⟩
  case origin =>
    rcases (hwired.reads x i).1 hi with ⟨hi, hxu, hiu⟩ | ⟨j, f, hj, hx', he⟩
    · refine ⟨x, i, .inl ⟨rfl, rfl, hxu⟩, hi, rfl, hroot, ?_⟩
      rwa [Renames, hops x hxu] at hx
    · have hsource := congrArg Input.source he
      refine ⟨u, j, .inr ⟨rfl, f, hx', he⟩, hj, hsource.symm, hsource ▸ hroot, ?_⟩
      rintro ⟨r, hr⟩
      cases hsite.union.symm.trans hr
  case unique =>
    rcases ho with ⟨rfl, rfl, hxu⟩ | ⟨rfl, f, hx, he⟩
    · rcases ho' with ⟨rfl, rfl, -⟩ | ⟨rfl, -⟩
      · exact ⟨rfl, rfl⟩
      · exact absurd rfl hxu
    · rcases ho' with ⟨rfl, rfl, hxu⟩ | ⟨-, f', hx', he'⟩
      · exact absurd rfl hxu
      · obtain ⟨rfl, hinput⟩ := hregular.once h.threads hx hx' rfl hsite.union
          (by simp [Operator.kind, Operator.deduplicating]) Kind.noConfusion
        obtain ⟨-, hoperand, rfl⟩ := Input.mk.inj hinput
        exact ⟨rfl, by rw [he, he', hoperand]⟩
  case sources =>
    rcases (hwired.reads x i).1 hi with ⟨hi, hxu, -⟩ | ⟨j, f, hj, -, he⟩
    · rw [hops x hxu]
      exact h.threads.sources x i hi hroot
    · obtain ⟨-, op, hop, hkind⟩ :=
        h.threads.sources u j hj ((congrArg Input.source he).symm.trans hroot)
      obtain rfl := Option.some.inj (hsite.union.symm.trans hop)
      simp [Operator.kind] at hkind
  case operands =>
    rcases (hwired.reads x i).1 hi with ⟨hi, hxu, -⟩ | ⟨j, f, hj, hx, he⟩
    · exact h.threads.operands x i op hi ((hops x hxu).symm.trans hop) hkind
    · have hzero := h.threads.operands x _ op hx ((hops x (hreader hx)).symm.trans hop) hkind
      exact hzero

theorem SpliceSite.feeds (hsite : g.SpliceSite u)
    (hwired : g'.Wired g.slots.length (fun x => if x = u then none else g.operator? x)
      (splicedReads g.Reads u)) (hi : g'.Reads x i) : g.Feeds i.source x := by
  rcases (hwired.reads x i).1 hi with ⟨hi, -⟩ | ⟨j, f, hj, hx, he⟩
  · exact .direct hi
  · rw [congrArg Input.source he]
    exact .through (j := j) hx hsite.union (by simp [Operator.kind, Operator.deduplicating]) hj

theorem SpliceSite.graded (h : g.Graded level) (hregular : g.Regular false shapes)
    (hsite : g.SpliceSite u) (hsymmetric : g'.Symmetric)
    (hwired : g'.Wired g.slots.length (fun x => if x = u then none else g.operator? x)
      (splicedReads g.Reads u)) : g'.Graded level := by
  refine h.along ⟨hsymmetric, hsite.threads h.toThreaded hregular hwired⟩ id rfl
    (fun x op hop => ?_) fun x i hi => hsite.feeds hwired hi
  rw [hwired.operator?] at hop
  split at hop
  · cases hop
  · exact ⟨op, hop, .refl op⟩

/-- Who has read the union reads its inputs, each in its place. -/
theorem SpliceSite.inputs_perm (h : g.Threaded) (hregular : g.Regular false shapes)
    (hsite : g.SpliceSite u) (hsymmetric : g'.Symmetric)
    (hwired : g'.Wired g.slots.length (fun x => if x = u then none else g.operator? x)
      (splicedReads g.Reads u)) (hx : x ≠ u) : (g'.inputs x).Perm ((g.inputs x).flatMap
        (detours u ((g.inputs u).map fun j => (j.source, j.feedback)))) := by
  refine inputs_perm_detours h.symmetric hsymmetric
    (by rw [List.map_map]; exact hsite.nodup) (fun i j hi hj hiu hju => ?_)
    (fun i j hi hj hiu hju hmem => ?_) fun l => ?_
  · exact (hregular.once h.threads hi hj (hiu.trans hju.symm) (hiu ▸ hsite.union)
      (by simp [Operator.kind, Operator.deduplicating]) Kind.noConfusion).2
  · -- an input of the union that has fed the consumer, too, would be read in two places
    rw [List.map_map, List.mem_map] at hmem
    obtain ⟨l, hl, hsource⟩ := hmem
    have hl := h.symmetric.linked.mem_inputs.1 hl
    have hrenames : ¬ Renames g.operator? x := hregular.not_renames hi (hiu ▸ hsite.union)
      (by simp [Operator.kind, Operator.deduplicating])
    refine hx (h.threads.single x j u l hj hl hsource.symm (fun hroot => ?_) hrenames ?_).1
    · obtain ⟨-, op, hop, hkind⟩ := h.threads.sources u l hl (hsource.trans hroot)
      obtain rfl := Option.some.inj (hsite.union.symm.trans hop)
      simp [Operator.kind] at hkind
    · rintro ⟨r, hr⟩
      cases hsite.union.symm.trans hr
  · rw [hwired.reads]
    refine or_congr ⟨fun hl => ⟨hl.1, hl.2.2⟩, fun hl => ⟨hl.1, hx, hl.2⟩⟩ ?_
    simp only [List.mem_map, h.symmetric.linked.mem_inputs]
    constructor
    · rintro ⟨j, f, hj, hi, he⟩
      exact ⟨⟨u, l.operand, f⟩, hi, rfl, _, ⟨j, hj, rfl⟩, he⟩
    · rintro ⟨i, hi, rfl, _, ⟨j, hj, rfl⟩, rfl⟩
      exact ⟨j, i.feedback, hj, hi, rfl⟩

end Splices

section Spliced

variable {G G' : Graph Plan} {src : Source} {limit : Nat} {level : OperatorId → Precision}
  {E : History} {shapes : Shapes} {u : OperatorId}

/-- A union has what it reads. -/
theorem Traced.union (hE : G.Traced src limit level E) (hop : G.operator? u = some .union)
    (n : Nat) :
    (level u).Agree (E (n + 1) u) ((G.inputs u).flatMap (E.over n)) := by
  obtain ⟨rows, hemit, hrows⟩ := hE.step n u .union hop
  obtain rfl := Except.ok.inj hemit
  exact hrows.symm.trans (.of_perm _ (rows_deliver_perm _))

/-- A union may make place for its inputs. -/
theorem Traced.spliced (h : G.Graded level) (hE : G.Traced src limit level E)
    (hregular : G.Regular false shapes) (hsite : G.SpliceSite u) (hsymmetric : G'.Symmetric)
    (hwired : G'.Wired G.slots.length (fun x => if x = u then none else G.operator? x)
      (splicedReads G.Reads u)) : G.Mirrors G' src limit level level E E := by
  have hops {x : OperatorId} {op : Operator Plan} (hop : G'.operator? x = some op) :
      x ≠ u ∧ G.operator? x = some op := by
    rw [hwired.operator?] at hop
    split at hop
    · cases hop
    · next hx => exact ⟨hx, hop⟩
  refine ⟨hsite.graded h hregular hsymmetric hwired, ⟨hE.zero, fun n x op hop => ?step⟩,
    fun x hx => ⟨x, hx.along h.symmetric.linked hsymmetric.linked id fun _ _ => hsite.feeds hwired⟩,
    fun _ _ => id, fun x form => ?results, fun _ _ _ => ⟨rfl, fun _ => rfl⟩⟩
  case step =>
    obtain ⟨hx, hop⟩ := hops hop
    have hinputs := hsite.inputs_perm h.toThreaded hregular hsymmetric hwired hx
    refine hE.transfer h hop hinputs (fun _ _ _ => operand_of_mem_detours) (fun _ i hi => ?_)
      fun i hi => ?_
    · obtain ⟨j, hj⟩ : ∃ j, j ∈ detours u ((G.inputs u).map fun j => (j.source, j.feedback)) i := by
        refine List.exists_mem_of_ne_nil _ ?_
        unfold detours
        split
        · obtain ⟨j, hj⟩ := hsite.fed
          simpa using List.ne_nil_of_mem (h.symmetric.linked.mem_inputs.2 hj)
        · exact List.cons_ne_nil _ _
      exact ⟨j, hinputs.mem_iff.2 (List.mem_flatMap.2 ⟨i, hi, hj⟩), operand_of_mem_detours hj⟩
    · by_cases hiu : i.source = u
      · rw [detours_of_eq hiu, List.map_map, List.flatMap_map]
        unfold History.over
        cases hf : i.feedback with
        | false =>
            simp only [Function.comp_apply, Bool.or_false, Bool.false_eq_true, if_false]
            exact hiu ▸ hE.union hsite.union n
        | true =>
            -- a union that is read over a feedback edge has no feedback inputs
            have hforward (j : Input) (hj : j ∈ G.inputs u) : j.feedback = false := by
              by_contra hback
              have hi' := (hregular.loopUnion u j hsite.union (h.symmetric.linked.mem_inputs.1 hj)
                (by simpa using hback) x i (h.symmetric.linked.mem_inputs.1 hi) hiu).1
              rw [hf] at hi'
              cases hi'
            simp only [Function.comp_apply, Bool.or_true, if_true]
            cases n with
            | zero =>
                have hnone : (G.inputs u).flatMap (fun j => E 0 j.source) = [] :=
                  List.flatMap_eq_nil_iff.2 fun j _ => hE.zero j.source
                rw [hnone, hE.zero]
                exact .refl _ []
            | succ n =>
                refine hiu ▸ (hE.union hsite.union n).trans (.flatMap_left _ fun j hj => ?_)
                rw [History.over, hforward j hj]
                exact .refl _ _
      · rw [detours_of_ne hiu, List.flatMap_singleton]
        exact .refl _ _
  case results =>
    rw [hwired.operator?]
    split
    · next hx => rw [hx, hsite.union]; simp
    · rfl

end Spliced

end Graph

end QuadAlgebra
