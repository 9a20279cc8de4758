import QuadAlgebra.Proofs.Planning.Links
import QuadAlgebra.Proofs.Rules.Courses
import QuadAlgebra.Proofs.Typing.Drafts

/-!
# Drawings of parts of rule bodies

A drawing supplies an operand with the solutions of a part of a body (`Supplies`): it adds operators
and one producer for the operand, and whatever the plan becomes later, in each round this producer
has the solutions of the part over the stored triples together with those that were derived in the
round before. Later drawings change nothing about this, because they add edges to their own
operators only, and in the end to matchers.

Operators on top of drawings supply their consumers if they make the right sets of solutions of
what they are supplied with (`Supplied.under_operator`).
-/

namespace QuadAlgebra

/-! ## Drafts of rule programs -/

/-- An operator that does not fail by itself, and is not a result. -/
structure Operator.IsQuiet (op : Operator Plan) : Prop where
  nested : op.nested = []
  kind : op.kind ∉ [.service, .result]

/-- A draft in which no operator fails by itself, the one result comes right after the root, and
matchers are remembered and not fed yet. -/
structure Draft.Tracked (d : Draft) : Prop where
  linked : d.graph.Linked
  root : d.graph.operator? Graph.root = some .root
  result : ∃ form, d.graph.operator? 1 = some (.result form)
  forward : ∀ x i, d.graph.Reads x i → i.feedback = false
  quiet : ∀ x op, d.graph.operator? x = some op → x ≠ 1 → op.IsQuiet
  matchers : ∀ x, x ∈ d.wiring.tripleMatchers ↔ ∃ p, d.graph.operator? x = some (.matchTriple p)
  unfed : ∀ x ∈ d.wiring.tripleMatchers, ∀ i, ¬ d.graph.Reads x i
  atomHeads : d.wiring.atomHeads = []

/-- An operator that may be fed: one that matches no triples. -/
structure Cursor.Open (c : Cursor) (d : Draft) : Prop where
  operator : ∃ op, d.graph.operator? c.target = some op ∧ ∀ p, op ≠ .matchTriple p

/-- Nothing changes about the operators of a draft but that one of them reads more. -/
structure Draft.Grown (d d' : Draft) (target : OperatorId) (new : Input → Prop) : Prop where
  size_le : d.size ≤ d'.size
  operator? : ∀ x < d.size, d'.graph.operator? x = d.graph.operator? x
  reads : ∀ x < d.size, ∀ i, d'.graph.Reads x i ↔ d.graph.Reads x i ∨ x = target ∧ new i

section Drafts

variable {d d₁ d' : Draft} {c : Cursor} {t x y : OperatorId} {new new' : Input → Prop}
  {op : Operator Plan}

theorem Draft.Tracked.wired (h : d.Tracked) :
    d.graph.Wired d.size d.graph.operator? d.graph.Reads := .of_linked h.linked

theorem Draft.Tracked.lt_size (h : d.Tracked) (hop : d.graph.operator? x = some op) :
    (x : Nat) < d.size := h.wired.lt_of_ne_none (by simp [hop])

theorem Cursor.Open.lt_size (h : c.Open d) (hd : d.Tracked) : (c.target : Nat) < d.size := by
  obtain ⟨op, hop, -⟩ := h.operator
  exact hd.lt_size hop

theorem Cursor.Open.not_mem (h : c.Open d) (hd : d.Tracked) :
    c.target ∉ d.wiring.tripleMatchers := fun hc => by
  obtain ⟨op, hop, hne⟩ := h.operator
  obtain ⟨p, hp⟩ := (hd.matchers _).1 hc
  exact hne p (Option.some.inj (hop.symm.trans hp))

theorem Cursor.Open.grown {c' : Cursor} (h : c.Open d) (hd : d.Tracked) (hgrown : d.Grown d' t new)
    (hc : c'.target = c.target) : c'.Open d' := by
  obtain ⟨op, hop, hne⟩ := h.operator
  exact ⟨op, by rw [hc, hgrown.operator? _ (hd.lt_size hop), hop], hne⟩

/-- Operators that read more are reached from more operators. -/
theorem Graph.transGen_leads_mono {γ δ : Type} {g : Graph γ} {g' : Graph δ} (h : g.Linked)
    (h' : g'.Linked) (hreads : ∀ x i, g.Reads x i → g'.Reads x i)
    (hxy : Relation.TransGen g.Leads x y) : Relation.TransGen g'.Leads x y := by
  refine Relation.TransGen.mono (fun a b hab => ?_) _ _ hxy
  obtain ⟨i, hi, rfl⟩ := (Graph.leads_iff h).1 hab
  exact (Graph.leads_iff h').2 ⟨i, hreads _ _ hi, rfl⟩

theorem Draft.Tracked.lt_size_of_reads (h : d.Tracked) {i : Input} (hi : d.graph.Reads x i) :
    (x : Nat) < d.size := h.wired.lt_of_ne_none (h.wired.ends_of_reads hi).1

theorem Draft.Grown.leads (h : d.Grown d' t new) (hd : d.Tracked) (hd' : d'.Tracked)
    (hxy : Relation.TransGen d.graph.Leads x y) : Relation.TransGen d'.graph.Leads x y :=
  Graph.transGen_leads_mono hd.linked hd'.linked
    (fun _ i hi => (h.reads _ (hd.lt_size_of_reads hi) i).2 (.inl hi)) hxy

end Drafts

/-! ## Single steps -/

section Steps

variable {d : Draft} {op : Operator Plan} {c : Cursor}

/-- A graph with one operator more and these new edges. -/
abbrev Draft.Gains (d d' : Draft) (op : Operator Plan) (new : OperatorId → Input → Prop) : Prop :=
  d'.graph.Wired (d.size + 1) (fun x => if x = d.size then some op else d.graph.operator? x)
    fun x i => d.graph.Reads x i ∨ new x i

/-- Nobody reads or is read by an operator that is not there. -/
theorem Draft.Tracked.unread (h : d.Tracked) {i : Input} : ¬ d.graph.Reads d.size i := fun hi =>
  Nat.lt_irrefl _ (h.lt_size_of_reads hi)

theorem Draft.Tracked.size_pos (h : d.Tracked) : 0 < d.size := h.lt_size h.root

theorem Draft.Tracked.gains {d' : Draft} {new : OperatorId → Input → Prop} (h : d.Tracked)
    (hgains : d.Gains d' op new) (hquiet : op.IsQuiet)
    (hnew : ∀ x i, new x i → x ∉ d'.wiring.tripleMatchers ∧ i.feedback = false)
    (hmatchers : ∀ x, x ∈ d'.wiring.tripleMatchers ↔
      x ∈ d.wiring.tripleMatchers ∨ x = d.size ∧ ∃ p, op = .matchTriple p)
    (hheads : d'.wiring.atomHeads = d.wiring.atomHeads) : d'.Tracked where
  linked := hgains.linked
  root := by
    have hne : Graph.root ≠ d.size := Nat.ne_of_lt h.size_pos
    rw [hgains.operator?, if_neg hne, h.root]
  result := h.result.imp fun form hform => by
    rw [hgains.operator?, if_neg (Nat.ne_of_lt (h.lt_size hform)), hform]
  forward x i hi := ((hgains.reads x i).1 hi).elim (h.forward x i) fun hi => (hnew x i hi).2
  quiet x op' hop' hx := by
    rw [hgains.operator?] at hop'
    split at hop'
    · exact Option.some.inj hop' ▸ hquiet
    · exact h.quiet x op' hop' hx
  matchers x := by
    rw [hmatchers, h.matchers, hgains.operator?]
    by_cases hx : x = d.size
    · have hnone : d.graph.operator? d.size = none := h.wired.eq_none_of_le (Nat.le_refl _)
      simp [hx, hnone]
    · simp [hx]
  unfed x hx i hi := by
    rcases (hgains.reads x i).1 hi with hi | hi
    · rcases (hmatchers x).1 hx with hx | ⟨rfl, -⟩
      · exact h.unfed x hx i hi
      · exact h.unread hi
    · exact (hnew x i hi).1 hx
  atomHeads := hheads.trans h.atomHeads

theorem Draft.Tracked.grown_of_gains {d' : Draft} {new : OperatorId → Input → Prop}
    (hgains : d.Gains d' op new) {t : OperatorId} {fed : Input → Prop}
    (hfed : ∀ x < d.size, ∀ i, new x i ↔ x = t ∧ fed i) : d.Grown d' t fed where
  size_le := by
    show d.size ≤ d'.graph.slots.length
    rw [hgains.length]
    exact Nat.le_succ _
  operator? x hx := by
    rw [hgains.operator?, if_neg (Nat.ne_of_lt hx)]
  reads x hx i := by rw [hgains.reads, hfed x hx]

theorem Draw.ends_add_gains (h : d.Tracked) (op : Operator Plan) :
    (Draw.add op).Ends d fun id d' =>
      id = d.size ∧ d'.wiring = d.wiring ∧ d.Gains d' op fun _ _ => False := by
  unfold Draw.add Draw.onGraph
  refine Edit.ends_within.2 ((Graph.wired_add h.wired op).mono fun id g' hadd => ?_)
  obtain ⟨rfl, hwired⟩ := hadd
  exact ⟨rfl, rfl, hwired.congr (fun _ => rfl) fun x i => by simp⟩

theorem Draw.ends_connect_gains {d₁ : Draft} {new : OperatorId → Input → Prop}
    (hgains : d.Gains d₁ op new) (s t : OperatorId) (k : Nat) :
    (Draw.connect s t k).Ends d₁ fun _ d' => d'.wiring = d₁.wiring ∧
      d.Gains d' op fun x i => new x i ∨ x = t ∧ i = ⟨s, k, false⟩ := by
  unfold Draw.connect Draw.onGraph
  refine Edit.ends_within.2 ((Graph.wired_connect hgains k false).mono fun _ g' hconnect => ?_)
  exact ⟨rfl, hconnect.2.2.congr (fun _ => rfl) fun _ _ => or_assoc⟩

theorem Cursor.ends_attach_gains (h : d.Tracked) (c : Cursor) (op : Operator Plan) :
    (c.attach op).Ends d fun c' d' => c' = ⟨d.size, 0⟩ ∧ d'.wiring = d.wiring ∧
      d.Gains d' op fun x i => x = c.target ∧ i = ⟨d.size, c.operand, false⟩ := by
  unfold Cursor.attach
  refine (Draw.ends_add_gains h op).bind fun id d₁ hadd => ?_
  obtain ⟨rfl, hwiring, hgains⟩ := hadd
  refine (Draw.ends_connect_gains hgains _ _ _).bind fun _ d₂ hconnect => Edit.ends_pure.2 ?_
  exact ⟨rfl, hconnect.1.trans hwiring,
    hconnect.2.congr (fun _ => rfl) fun x i => by simp⟩

theorem Cursor.ends_attachSource_gains (h : d.Tracked) (c : Cursor) (op : Operator Plan) :
    (c.attachSource op).Ends d fun _ d' => d'.wiring = d.wiring ∧
      d.Gains d' op fun x i => x = d.size ∧ i = ⟨Graph.root, 0, false⟩ ∨
        x = c.target ∧ i = ⟨d.size, c.operand, false⟩ := by
  unfold Cursor.attachSource Draw.addSource
  refine Edit.ends_bind.2 ((Draw.ends_add_gains h op).bind fun id d₁ hadd => ?_)
  obtain ⟨rfl, hwiring, hgains⟩ := hadd
  refine (Draw.ends_connect_gains hgains _ _ _).bind fun _ d₂ hconnect => Edit.ends_pure.2 ?_
  refine (Draw.ends_connect_gains hconnect.2 _ _ _).mono fun _ d₃ hconnect' => ?_
  exact ⟨hconnect'.1.trans (hconnect.1.trans hwiring),
    hconnect'.2.congr (fun _ => rfl) fun x i => by simp⟩

end Steps

/-! ## What producers have -/

/-- Rows of the operators of a rule program, where matchers have their solutions over the triples
that were derived before. -/
structure RuleCourse (src : Source) (limit : Nat) (G : Graph Plan)
    (R : Nat → OperatorId → List Row) (T : Nat → Set Triple) : Prop
    extends Course src limit G R where
  root : G.operator? Graph.root = some .root
  matched : ∀ n x p, G.operator? x = some (.matchTriple p) →
    SolutionRows (R (n + 1) x) (p.answers (T n))

/-- An operator of one graph is there in another one, and reads the same unless it matches
triples. -/
structure Graph.Follows (g G : Graph Plan) (x : OperatorId) : Prop where
  operator? : G.operator? x = g.operator? x
  reads : (∀ p, g.operator? x ≠ some (.matchTriple p)) → ∀ i, G.Reads x i ↔ g.Reads x i

/-- Whatever becomes of the draft, if its operators from a number on are kept, then one of them has
solutions that depend on the triples of the round before. -/
def Draft.Finds (src : Source) (d : Draft) (first : Nat) (x : OperatorId)
    (answers : Set Triple → Set Solution) : Prop :=
  ∀ limit G R T, RuleCourse src limit G R T →
    (∀ y, first ≤ y → y < d.size → d.graph.Follows G y) →
      ∀ n, SolutionRows (R (n + 1) x) (answers (T n))

/-- A part of a rule body: its solutions over derived triples, and whether it matches any. -/
structure Part where
  answers : Set Triple → Set Solution
  matching : Bool

/-- The operands of an operator, from the given one on, have been supplied with the solutions of
some parts, each one by one producer. -/
structure Supplied (src : Source) (target : OperatorId) (first : Nat) (d d' : Draft)
    (producers : List OperatorId) (parts : List Part) : Prop where
  tracked : d'.Tracked
  grown : d.Grown d' target fun i =>
    i.feedback = false ∧ first ≤ i.operand ∧ producers[i.operand - first]? = some i.source
  generators : d'.wiring.generators = d.wiring.generators
  finds : List.Forall₂ (fun y part => d'.Finds src d.size y part.answers) producers parts
  reached : ∀ part ∈ parts, part.matching = true →
    ∃ m ∈ d'.wiring.tripleMatchers, Relation.TransGen d'.graph.Leads m target

/-- A drawing that supplies whatever operand it is given with the solutions of a part. -/
def Supplies (src : Source) (draw : DrawInto) (part : Part) : Prop :=
  ∀ (c : Cursor) (d : Draft), d.Tracked → c.Open d →
    (draw c).Ends d fun _ d' => ∃ y, Supplied src c.target c.operand d d' [y] [part]

section Supply

variable {src : Source} {d d₁ d' : Draft} {c : Cursor} {t x : OperatorId} {first : Nat}
  {producers : List OperatorId} {part : Part} {parts : List Part} {op : Operator Plan}
  {answers : Set Triple → Set Solution}

/-- What an operator has stays when the operators from a number on do. -/
theorem Draft.Finds.keep (h : d₁.Finds src first x answers) (hsize : d₁.size ≤ d'.size)
    (hkept : ∀ y, first ≤ y → (y : Nat) < d₁.size → d₁.graph.Follows d'.graph y) :
    d'.Finds src first x answers := by
  intro limit G R T hcourse hfollows
  refine h limit G R T hcourse fun y hfirst hy => ?_
  have hfollow := hfollows y hfirst (Nat.lt_of_lt_of_le hy hsize)
  have hsame := hkept y hfirst hy
  refine ⟨hfollow.operator?.trans hsame.operator?, fun hmatch i => ?_⟩
  rw [hfollow.reads (by rwa [hsame.operator?]), hsame.reads hmatch]

theorem Draft.Grown.finds {new : Input → Prop} (h : d₁.Grown d' t new) (ht : t < first)
    (hfinds : d₁.Finds src first x answers) : d'.Finds src first x answers := by
  refine hfinds.keep h.size_le fun y hfirst hy => ⟨h.operator? y hy, fun _ i => ?_⟩
  have hne : y ≠ t := Nat.ne_of_gt (Nat.lt_of_lt_of_le ht hfirst)
  simp [h.reads y hy, hne]

theorem Draft.Finds.mono {first' : Nat} (h : d.Finds src first x answers) (hle : first' ≤ first) :
    d.Finds src first' x answers := fun limit G R T hcourse hfollows =>
  h limit G R T hcourse fun y hy => hfollows y (Nat.le_trans hle hy)

/-- The inputs that one producer is. -/
theorem eq_input_iff {i : Input} {y : OperatorId} {k : Nat} : i = ⟨y, k, false⟩ ↔
    i.feedback = false ∧ k ≤ i.operand ∧ [y][i.operand - k]? = some i.source := by
  obtain ⟨source, operand, feedback⟩ := i
  rw [Input.mk.injEq]
  constructor
  · rintro ⟨rfl, rfl, rfl⟩
    simp
  · rintro ⟨rfl, hle, hsource⟩
    obtain ⟨hlt, hsource⟩ := List.getElem?_eq_some_iff.1 hsource
    have hzero : operand - k = 0 := by simpa using hlt
    have hle : k ≤ operand := hle
    exact ⟨by simpa [hzero] using hsource.symm, by omega, rfl⟩

namespace Supplied

theorem nil (hd : d.Tracked) : Supplied src t first d d [] [] where
  tracked := hd
  grown := ⟨Nat.le_refl _, fun _ _ => rfl, fun _ _ _ => by simp⟩
  generators := rfl
  finds := .nil
  reached _ h := absurd h List.not_mem_nil

/-- Operands are supplied one after the other. -/
theorem cons (ht : t < d.size) (hd₁ : Supplied src t first d d₁ [x] [part])
    (h : Supplied src t (first + 1) d₁ d' producers parts) :
    Supplied src t first d d' (x :: producers) (part :: parts) where
  tracked := h.tracked
  grown :=
    { size_le := Nat.le_trans hd₁.grown.size_le h.grown.size_le
      operator? := fun y hy => (h.grown.operator? y (Nat.lt_of_lt_of_le hy hd₁.grown.size_le)).trans
        (hd₁.grown.operator? y hy)
      reads := fun y hy i => by
        rw [h.grown.reads y (Nat.lt_of_lt_of_le hy hd₁.grown.size_le), hd₁.grown.reads y hy,
          or_assoc, ← and_or_left]
        refine or_congr_right (and_congr_right fun _ => ?_)
        rw [← and_or_left]
        refine and_congr_right fun _ => ?_
        rcases Nat.lt_trichotomy i.operand first with hlt | rfl | hgt
        · have hlt' : ¬ first + 1 ≤ i.operand := by omega
          simp [Nat.not_le.2 hlt, hlt']
        · simp
        · obtain ⟨k, hk⟩ : ∃ k, i.operand = first + (k + 1) := ⟨i.operand - first - 1, by omega⟩
          have hsub : i.operand - first = k + 1 := by omega
          have hsub' : i.operand - (first + 1) = k := by omega
          have hle : first ≤ i.operand ∧ first + 1 ≤ i.operand := by omega
          simp [hsub, hsub', hle] }
  generators := h.generators.trans hd₁.generators
  finds := by
    obtain ⟨hx, -⟩ := List.forall₂_cons.1 hd₁.finds
    refine .cons (h.grown.finds ht hx) (h.finds.imp fun _ _ hfinds => ?_)
    exact hfinds.mono hd₁.grown.size_le
  reached part' hpart' hmatching := by
    rcases List.mem_cons.1 hpart' with rfl | hpart'
    · obtain ⟨m, hm, hleads⟩ := hd₁.reached _ List.mem_cons_self hmatching
      obtain ⟨p, hp⟩ := (hd₁.tracked.matchers m).1 hm
      refine ⟨m, (h.tracked.matchers m).2 ⟨p, ?_⟩, h.grown.leads hd₁.tracked h.tracked hleads⟩
      rw [h.grown.operator? m (hd₁.tracked.lt_size hp), hp]
    · exact h.reached part' hpart' hmatching

/-- An operator on top of drawings that supply all of its operands. -/
theorem under_operator (hd : d.Tracked) (hc : (c.target : Nat) < d.size)
    (hgains : d.Gains d₁ op fun x i => x = c.target ∧ i = ⟨d.size, c.operand, false⟩)
    (hmatch : ∀ p, op ≠ .matchTriple p) (hgenerators : d₁.wiring.generators = d.wiring.generators)
    (h : Supplied src d.size 0 d₁ d' producers parts)
    (hmakes : ∀ D, op.Makes src (parts.map fun part => part.answers D) (part.answers D))
    (hmatching : part.matching = true → ∃ part' ∈ parts, part'.matching = true) :
    Supplied src c.target c.operand d d' [d.size] [part] := by
  have hsize : d₁.size = d.size + 1 := hgains.length
  have hne : d.size ≠ c.target := Nat.ne_of_gt hc
  have hnew : d.size < d₁.size := hsize ▸ Nat.lt_succ_self _
  have hop : d'.graph.operator? d.size = some op := by
    rw [h.grown.operator? _ hnew, hgains.operator?, if_pos rfl]
  have hreads : d'.graph.ReadsEach d.size producers := fun i => by
    have hnone : ¬ d.graph.Reads d.size i := hd.unread
    rw [h.grown.reads _ hnew, hgains.reads]
    simp [hnone, hne]
  have hfed : d'.graph.Reads c.target ⟨d.size, c.operand, false⟩ := by
    rw [h.grown.reads _ (Nat.lt_trans hc hnew), hgains.reads]
    exact .inl (.inr ⟨rfl, rfl⟩)
  refine ⟨h.tracked, ⟨?_, fun y hy => ?_, fun y hy i => ?_⟩, h.generators.trans hgenerators,
    .cons ?_ .nil, fun part' hpart' hm => ?_⟩
  · exact Nat.le_trans (Nat.le_of_lt hnew) h.grown.size_le
  · rw [h.grown.operator? y (Nat.lt_trans hy hnew), hgains.operator?, if_neg (Nat.ne_of_lt hy)]
  · have hy' : y ≠ d.size := Nat.ne_of_lt hy
    rw [h.grown.reads y (Nat.lt_trans hy hnew), hgains.reads, ← eq_input_iff]
    simp [hy']
  · intro limit G R T hcourse hfollows n
    have hlt : d.size < d'.size := Nat.lt_of_lt_of_le hnew h.grown.size_le
    have hfollow := hfollows d.size (Nat.le_refl _) hlt
    have hkept : ∀ p, d'.graph.operator? d.size ≠ some (.matchTriple p) := fun p hp =>
      hmatch p (Option.some.inj (hop.symm.trans hp))
    have hproducers : List.Forall₂ (fun y A => SolutionRows (R (n + 1) y) A) producers
        (parts.map fun part => part.answers (T n)) := by
      refine List.forall₂_map_right_iff.2 (h.finds.imp fun y part' hfinds => ?_)
      exact hfinds limit G R T hcourse (fun z hz => hfollows z (by omega)) n
    exact hcourse.makes (hfollow.operator?.trans hop)
      (fun i => (hfollow.reads hkept i).trans (hreads i)) hproducers (hmakes (T n))
  · obtain rfl := List.mem_singleton.1 hpart'
    obtain ⟨part', hpart', hm'⟩ := hmatching hm
    obtain ⟨m, hm, hleads⟩ := h.reached part' hpart' hm'
    exact ⟨m, hm, hleads.tail ((Graph.leads_iff h.tracked.linked).2 ⟨_, hfed, rfl⟩)⟩

end Supplied

/-! ## Operators over drawings -/

/-- An operator that may be drawn in rule bodies: it does not fail by itself, and matches no
triples. -/
structure Operator.IsBodyPart (op : Operator Plan) : Prop extends op.IsQuiet where
  matchless : ∀ p, op ≠ .matchTriple p

theorem Operator.isBodyPart (hnested : op.nested = [])
    (hkind : op.kind ∉ [.service, .result, .matchTriple]) : op.IsBodyPart where
  nested := hnested
  kind h := hkind (List.subset_append_left [Kind.service, .result] [.matchTriple] h)
  matchless p hp := hkind (by simp [hp, Operator.kind])

theorem Draft.Tracked.gains_bodyPart {new : OperatorId → Input → Prop} (hd : d.Tracked)
    (hop : op.IsBodyPart) (hgains : d.Gains d' op new) (hwiring : d'.wiring = d.wiring)
    (hnew : ∀ x i, new x i → x ∉ d.wiring.tripleMatchers ∧ i.feedback = false) : d'.Tracked := by
  refine hd.gains hgains hop.toIsQuiet (hwiring ▸ hnew) (fun x => ?_) (by rw [hwiring])
  simp [hwiring, hop.matchless]

/-- The number of the next operator is not that of a matcher. -/
theorem Draft.Tracked.size_not_mem (hd : d.Tracked) : d.size ∉ d.wiring.tripleMatchers := by
  intro h
  obtain ⟨p, hp⟩ := (hd.matchers _).1 h
  exact Nat.lt_irrefl _ (hd.lt_size hp)

theorem Cursor.ends_attach_open (hd : d.Tracked) (hc : c.Open d) (hop : op.IsBodyPart) :
    (c.attach op).Ends d fun c' d' => c' = ⟨d.size, 0⟩ ∧ d'.Tracked ∧ c'.Open d' ∧
      d'.wiring = d.wiring ∧
      d.Gains d' op fun x i => x = c.target ∧ i = ⟨d.size, c.operand, false⟩ := by
  refine (c.ends_attach_gains hd op).mono fun c' d' hattach => ?_
  obtain ⟨rfl, hwiring, hgains⟩ := hattach
  refine ⟨rfl, hd.gains_bodyPart hop hgains hwiring ?_, ⟨op, ?_, hop.matchless⟩, hwiring, hgains⟩
  · rintro x i ⟨rfl, rfl⟩
    exact ⟨hc.not_mem hd, rfl⟩
  · rw [hgains.operator?, if_pos rfl]

/-- Operands that are supplied one after the other by drawings of their own. -/
theorem supplied_forM {draws : List DrawInto} (hdraws : List.Forall₂ (Supplies src) draws parts)
    (hd : d.Tracked) (hc : (Cursor.mk t first).Open d) :
    ((draws.zipIdx first).forM fun p => p.1 ⟨t, p.2⟩).Ends d fun _ d' =>
      ∃ producers, Supplied src t first d d' producers parts := by
  induction hdraws generalizing d first with
  | nil => exact Edit.ends_pure.2 ⟨[], .nil hd⟩
  | cons hdraw hrest ih =>
      rw [List.zipIdx_cons, List.forM_eq_forM, List.forM_cons]
      refine (hdraw ⟨t, first⟩ d hd hc).bind fun _ d₁ hfirst => ?_
      obtain ⟨y, hfirst⟩ := hfirst
      have hc' : (Cursor.mk t (first + 1)).Open d₁ := hc.grown hd hfirst.grown rfl
      refine (ih hfirst.tracked hc').mono fun _ d' hothers => ?_
      obtain ⟨producers, hothers⟩ := hothers
      exact ⟨y :: producers, .cons (hc.lt_size hd) hfirst hothers⟩

/-- An operator over drawings, which supply its operands in some way. -/
theorem supplies_over (parts : List Part) {draw : DrawInto} (hop : op.IsBodyPart)
    (hdraw : ∀ (t : OperatorId) (d : Draft), d.Tracked → (Cursor.mk t 0).Open d →
      (draw ⟨t, 0⟩).Ends d fun _ d' => ∃ producers, Supplied src t 0 d d' producers parts)
    (hmakes : ∀ D, op.Makes src (parts.map fun part => part.answers D) (part.answers D))
    (hmatching : part.matching = true → ∃ part' ∈ parts, part'.matching = true) :
    Supplies src (fun c => do draw (← c.attach op)) part := by
  intro c d hd hc
  refine (Cursor.ends_attach_open hd hc hop).bind fun c' d₁ hattach => ?_
  obtain ⟨rfl, hd₁, hc', hwiring, hgains⟩ := hattach
  refine (hdraw d.size d₁ hd₁ hc').mono fun _ d' hsupplied => ?_
  obtain ⟨producers, hsupplied⟩ := hsupplied
  exact ⟨d.size, hsupplied.under_operator hd (hc.lt_size hd) hgains hop.matchless
    (by rw [hwiring]) hmakes
    hmatching⟩

theorem supplies_over_one {draw : DrawInto} {below : Part} (hop : op.IsBodyPart)
    (hdraw : Supplies src draw below)
    (hmakes : ∀ D, op.Makes src [below.answers D] (part.answers D))
    (hmatching : part.matching = true → below.matching = true) :
    Supplies src (fun c => do draw (← c.attach op)) part := by
  refine supplies_over [below] hop (fun t d hd hc => ?_) hmakes fun h =>
    ⟨below, List.mem_singleton_self _, hmatching h⟩
  exact (hdraw ⟨t, 0⟩ d hd hc).mono fun _ _ ⟨y, hy⟩ => ⟨[y], hy⟩

theorem supplies_over_all {draws : List DrawInto} (hop : op.IsBodyPart)
    (hdraws : List.Forall₂ (Supplies src) draws parts)
    (hmakes : ∀ D, op.Makes src (parts.map fun part => part.answers D) (part.answers D))
    (hmatching : part.matching = true → ∃ part' ∈ parts, part'.matching = true) :
    Supplies src (fun c => do
      let node ← c.attach op
      draws.zipIdx.forM fun (draw, operand) => draw (node.sibling operand)) part :=
  supplies_over parts hop (fun _ _ hd hc => supplied_forM hdraws hd hc) hmakes hmatching

/-! ## Sources and matchers -/

/-- A new operator that supplies an operand. -/
theorem supplied_of_gains {new : OperatorId → Input → Prop} (hd' : d'.Tracked)
    (hgains : d.Gains d' op new)
    (hnew : ∀ x i, new x i ∧ x ≠ d.size ↔ x = c.target ∧ i = ⟨d.size, c.operand, false⟩)
    (hgenerators : d'.wiring.generators = d.wiring.generators)
    (hfinds : d'.Finds src d.size d.size part.answers)
    (hmatching : part.matching = true → d.size ∈ d'.wiring.tripleMatchers) :
    Supplied src c.target c.operand d d' [d.size] [part] where
  tracked := hd'
  grown := Draft.Tracked.grown_of_gains hgains (fun x hx i => by
    rw [← eq_input_iff, ← hnew, and_iff_left (Nat.ne_of_lt hx)])
  generators := hgenerators
  finds := .cons hfinds .nil
  reached part' hpart' hm := by
    obtain rfl := List.mem_singleton.1 hpart'
    have hfed : d'.graph.Reads c.target ⟨d.size, c.operand, false⟩ :=
      (hgains.reads _ _).2 (.inr ((hnew _ _).2 ⟨rfl, rfl⟩).1)
    exact ⟨d.size, hmatching hm, .single ((Graph.leads_iff hgains.linked).2 ⟨_, hfed, rfl⟩)⟩

/-- An operator that the root feeds. -/
theorem supplies_source {A : Set Solution} (hop : op.IsBodyPart) (hmakes : op.Makes src [{∅}] A) :
    Supplies src (fun c => c.attachSource op) ⟨fun _ => A, false⟩ := by
  intro c d hd hc
  refine (c.ends_attachSource_gains hd op).mono fun _ d' hattach => ⟨d.size, ?_⟩
  obtain ⟨hwiring, hgains⟩ := hattach
  have hlt := hc.lt_size hd
  have hne : d.size ≠ c.target := Nat.ne_of_gt hlt
  have hd' : d'.Tracked := by
    refine hd.gains_bodyPart hop hgains hwiring ?_
    rintro x i (⟨rfl, rfl⟩ | ⟨rfl, rfl⟩)
    · exact ⟨hd.size_not_mem, rfl⟩
    · exact ⟨hc.not_mem hd, rfl⟩
  refine supplied_of_gains hd' hgains (fun x i => ?_) (by rw [hwiring]) ?_ nofun
  · constructor
    · rintro ⟨⟨rfl, -⟩ | h, hx⟩
      · exact absurd rfl hx
      · exact h
    · rintro ⟨rfl, rfl⟩
      exact ⟨.inr ⟨rfl, rfl⟩, hne.symm⟩
  · intro limit G R T hcourse hfollows n
    have hsize : d.size < d'.size := by
      show d.size < d'.graph.slots.length
      rw [hgains.length]
      exact Nat.lt_succ_self _
    have hfollow := hfollows d.size (Nat.le_refl _) hsize
    have hop' : d'.graph.operator? d.size = some op := by rw [hgains.operator?, if_pos rfl]
    have hkept : ∀ p, d'.graph.operator? d.size ≠ some (.matchTriple p) := fun p hp =>
      hop.matchless p (Option.some.inj (hop'.symm.trans hp))
    have hreads : G.ReadsEach d.size [Graph.root] := fun i => by
      have hnone : ¬ d.graph.Reads d.size i := hd.unread
      rw [hfollow.reads hkept, hgains.reads]
      have hinput := eq_input_iff (i := i) (y := Graph.root) (k := 0)
      simpa [hnone, hne] using hinput
    exact hcourse.makes (hfollow.operator?.trans hop') hreads
      (.cons (hcourse.toCourse.root hcourse.root) .nil) hmakes

/-- A matcher, which is remembered. -/
theorem supplies_matcher (p : TriplePattern) : Supplies src (fun c => do
    let matcher ← Draw.add (.matchTriple p)
    c.feed matcher
    modify fun d =>
      { d with wiring := { d.wiring with tripleMatchers := d.wiring.tripleMatchers ++ [matcher] } })
      ⟨p.answers, true⟩ := by
  intro c d hd hc
  refine (Draw.ends_add_gains hd (.matchTriple p)).bind fun id d₁ hadd => ?_
  obtain ⟨rfl, hwiring, hgains⟩ := hadd
  refine (Draw.ends_connect_gains hgains _ _ _).bind fun _ d₂ hconnect => Edit.ends_modify.2 ?_
  obtain ⟨hwiring', hgains⟩ := hconnect
  have hwiring₂ : d₂.wiring = d.wiring := hwiring'.trans hwiring
  have hgains : d.Gains { d₂ with wiring := { d₂.wiring with
    tripleMatchers := d₂.wiring.tripleMatchers ++ [d.size] } } (.matchTriple p) _ := hgains
  have hlt := hc.lt_size hd
  have hne : d.size ≠ c.target := Nat.ne_of_gt hlt
  refine ⟨d.size, supplied_of_gains ?_ hgains (fun x i => ?_) ?_ ?_ fun _ => ?_⟩
  · refine hd.gains hgains ⟨rfl, by simp [Operator.kind]⟩ ?_ (fun x => ?_) ?_
    · rintro x i (h | ⟨rfl, rfl⟩)
      · exact h.elim
      · refine ⟨fun hx => ?_, rfl⟩
        rcases List.mem_append.1 hx with hx | hx
        · exact hc.not_mem hd (hwiring₂ ▸ hx)
        · exact hne (List.mem_singleton.1 hx).symm
    · simp [hwiring₂]
    · show d₂.wiring.atomHeads = d.wiring.atomHeads
      rw [hwiring₂]
  · constructor
    · rintro ⟨h | h, -⟩
      · exact h.elim
      · exact h
    · rintro ⟨rfl, rfl⟩
      exact ⟨.inr ⟨rfl, rfl⟩, hne.symm⟩
  · show d₂.wiring.generators = d.wiring.generators
    rw [hwiring₂]
  · intro limit G R T hcourse hfollows n
    have hsize : d.size < d₂.size := by
      show d.size < d₂.graph.slots.length
      rw [hgains.length]
      exact Nat.lt_succ_self _
    refine hcourse.matched n d.size p ((hfollows d.size (Nat.le_refl _) hsize).operator?.trans ?_)
    exact (hgains.operator? _).trans (if_pos rfl)
  · exact List.mem_append_right _ (List.mem_singleton_self _)

end Supply

end QuadAlgebra
