import QuadAlgebra.Proofs.Planning.Filters
import QuadAlgebra.Proofs.Relocation.Sites

/-!
# Drawing the same thing twice

A drawing into a larger plan is mirrored by one into a plan of its own if, whatever the first one
does, the second one does the same at the corresponding place, with corresponding results
(`Site.Mirrors`). Mirroring is closed under the ways in which drawings are composed, and single
steps mirror each other when they are applied to corresponding operators.
-/

namespace QuadAlgebra

namespace Site

variable {s : Site} {α β α' β' : Type}

/-! ## Mirrored drawings -/

/-- A draft that holds another one at a site, with the same numbers handed out. -/
structure Carries (s : Site) (d e : Draft) : Prop where
  holds : s.Holds d.graph e.graph
  nextVar : d.nextVar = e.nextVar
  nextSlot : d.nextSlot = e.nextSlot

/-- Whatever the second drawing does in a draft that holds another one, the first one does in the
draft that is held. The results are related. -/
def Mirrors (s : Site) (related : α → β → Prop) (x : Draw α) (y : Draw β) : Prop :=
  ∀ d e, s.Carries d e → ∀ b e', y.runOn e = (.ok b, e') →
    ∃ a d', x.runOn d = (.ok a, d') ∧ related a b ∧ s.Carries d' e'

variable {related : α → β → Prop} {related' : α' → β' → Prop}

/-- Two drawings that return related results without drawing. -/
theorem mirrors_pure {a : α} {b : β} (h : related a b) : s.Mirrors related (pure a) (pure b) := by
  intro d e hde b' e' hrun
  obtain ⟨hb, rfl⟩ := Prod.mk.inj hrun
  obtain rfl := Except.ok.inj hb
  exact ⟨a, d, rfl, h, hde⟩

/-- A drawing that has failed is mirrored by whatever has been drawn in its place. -/
theorem mirrors_throw {x : Draw α} {error : Error} :
    s.Mirrors related x (throw error : Draw β) := by
  intro d e _ b e' hrun
  cases (Prod.mk.inj hrun).1

theorem mirrors_throw_bind {γ : Type} {x : Draw α} {error : Error} {f : γ → Draw β} :
    s.Mirrors related x (throw error >>= f) := mirrors_throw

/-- Drawings that mirror each other go on with such drawings. -/
theorem Mirrors.bind {x : Draw α} {y : Draw β} {f : α → Draw α'} {f' : β → Draw β'}
    (h : s.Mirrors related x y) (hnext : ∀ a b, related a b → s.Mirrors related' (f a) (f' b)) :
    s.Mirrors related' (x >>= f) (y >>= f') := by
  intro d e hde b' e' hrun
  obtain ⟨b, e₁, hrun₁, hrun⟩ := Edit.runOn_bind_eq_ok.1 hrun
  obtain ⟨a, d₁, hrunx, hab, hde₁⟩ := h d e hde b e₁ hrun₁
  obtain ⟨a', d', hrun', hab', hde'⟩ := hnext a b hab d₁ e₁ hde₁ b' e' hrun
  exact ⟨a', d', Edit.runOn_bind_eq_ok.2 ⟨a, d₁, hrunx, hrun'⟩, hab', hde'⟩

/-- Results may be related more loosely. -/
theorem Mirrors.mono {related₂ : α → β → Prop} {x : Draw α} {y : Draw β}
    (h : s.Mirrors related x y) (hmono : ∀ a b, related a b → related₂ a b) :
    s.Mirrors related₂ x y := by
  intro d e hde b e' hrun
  obtain ⟨a, d', hrunx, hab, hde'⟩ := h d e hde b e' hrun
  exact ⟨a, d', hrunx, hmono a b hab, hde'⟩

/-- A drawing that is the same at both places, with the same result. -/
abbrev MirrorsSelf (s : Site) (x : Draw α) : Prop := s.Mirrors (· = ·) x x

theorem mirrorsSelf_pure (a : α) : s.MirrorsSelf (pure a) := mirrors_pure rfl

theorem mirrorsSelf_throw (error : Error) : s.MirrorsSelf (throw error : Draw α) := mirrors_throw

/-- A drawing that does not depend on the place may come first. -/
theorem MirrorsSelf.bind {x : Draw α} {f : α → Draw α'} {f' : α → Draw β'}
    (h : s.MirrorsSelf x) (hnext : ∀ a, s.Mirrors related' (f a) (f' a)) :
    s.Mirrors related' (x >>= f) (x >>= f') :=
  Mirrors.bind h fun a _ hab => hab ▸ hnext a

/-- A check that may be left out before something else is done. -/
theorem mirrors_optionally {cond : Prop} [Decidable cond] {check : Draw Unit}
    {next : Unit → Draw α} {next' : Unit → Draw β} (hcheck : s.MirrorsSelf check)
    (hnext : s.Mirrors related (next ()) (next' ())) :
    s.Mirrors related (if cond then check >>= next else next ())
      (if cond then check >>= next' else next' ()) := by
  split
  · exact hcheck.bind fun _ => hnext
  · exact hnext

/-- The same branch is taken at both places. -/
theorem mirrors_ite {c : Prop} [Decidable c] {x x' : Draw α} {y y' : Draw β}
    (h : c → s.Mirrors related x y) (h' : ¬ c → s.Mirrors related x' y') :
    s.Mirrors related (if c then x else x') (if c then y else y') := by
  split
  · next hc => exact h hc
  · next hc => exact h' hc

/-! ## Loops -/

/-- Drawings for related elements, one after the other. -/
theorem mirrors_forM {l : List α} {l' : List β} {f : α → Draw PUnit} {f' : β → Draw PUnit}
    (hl : List.Forall₂ related l l')
    (h : ∀ a b, related a b → s.Mirrors (· = ·) (f a) (f' b)) :
    s.Mirrors (· = ·) (l.forM f) (l'.forM f') := by
  induction hl with
  | nil => exact mirrors_pure rfl
  | cons hab _ ih =>
      rw [List.forM_eq_forM, List.forM_cons, List.forM_eq_forM, List.forM_cons]
      exact (h _ _ hab).bind fun _ _ _ => ih

/-- Drawings in a row that hand related results on to each other. -/
theorem mirrors_foldlM {l : List α} {f : α' → α → Draw α'} {f' : β' → α → Draw β'} {a : α'} {b : β'}
    (hab : related' a b)
    (h : ∀ a b, related' a b → ∀ x ∈ l, s.Mirrors related' (f a x) (f' b x)) :
    s.Mirrors related' (l.foldlM f a) (l.foldlM f' b) := by
  induction l generalizing a b with
  | nil => exact mirrors_pure hab
  | cons x rest ih =>
      rw [List.foldlM_cons, List.foldlM_cons]
      exact (h a b hab x List.mem_cons_self).bind fun a' b' hab' =>
        ih hab' fun a b hab y hy => h a b hab y (List.mem_cons_of_mem _ hy)

/-- Drawings for each element of a list return related lists. -/
theorem mirrors_mapM {γ : Type} {l : List γ} {f : γ → Draw α} {f' : γ → Draw β}
    (h : ∀ x ∈ l, s.Mirrors related (f x) (f' x)) :
    s.Mirrors (List.Forall₂ related) (l.mapM f) (l.mapM f') := by
  induction l with
  | nil =>
      rw [List.mapM_nil, List.mapM_nil]
      exact mirrors_pure .nil
  | cons x rest ih =>
      rw [List.mapM_cons, List.mapM_cons]
      refine (h x List.mem_cons_self).bind fun a b hab => ?_
      refine (ih fun y hy => h y (List.mem_cons_of_mem _ hy)).bind fun as bs habs => ?_
      exact mirrors_pure (.cons hab habs)

theorem mirrorsSelf_mapM {γ : Type} {l : List γ} {f : γ → Draw α}
    (h : ∀ x ∈ l, s.MirrorsSelf (f x)) : s.MirrorsSelf (l.mapM f) :=
  (mirrors_mapM h).mono fun _ _ hab => List.forall₂_eq_eq_eq ▸ hab

/-! ## Single steps -/

/-- An operator and its place. It is not the result, and not the root. -/
def Drawn (s : Site) (id id' : Nat) : Prop := 2 ≤ id ∧ id' = s.place id

/-- What has been drawn is not the result. -/
theorem Drawn.ne_one {id id' : Nat} (h : s.Drawn id id') : id ≠ 1 := by
  have := h.1
  omega

/-- What has been drawn is not the root. -/
theorem Drawn.ne_zero {id id' : Nat} (h : s.Drawn id id') : id ≠ 0 := by
  have := h.1
  omega

/-- An operator is added at both places, under numbers that correspond. -/
theorem mirrors_add {op : Operator Plan} (hop : op.kind ≠ .result) :
    s.Mirrors s.Drawn (Draw.add op) (Draw.add op) := by
  intro d e hde b e' hrun
  rw [Draw.add_runOn] at hrun
  obtain ⟨hb, rfl⟩ := Prod.mk.inj hrun
  obtain rfl := Except.ok.inj hb
  refine ⟨d.size, d.withOperator op, rfl, ⟨hde.holds.two_le, ?_⟩,
    hde.holds.withOperator hop, hde.nextVar, hde.nextSlot⟩
  have hplace := place_of_two_le (s := s) hde.holds.two_le
  have hlength := hde.holds.length
  rw [Draft.size, Draft.size]
  omega

/-- The root or an operator that has been drawn, and its place. -/
def Sourced (s : Site) (id id' : Nat) : Prop := id ≠ 1 ∧ id' = s.place id

theorem Drawn.sourced {id id' : Nat} (h : s.Drawn id id') : s.Sourced id id' := ⟨h.ne_one, h.2⟩

theorem sourced_root : s.Sourced Graph.root Graph.root := ⟨Nat.zero_ne_one, rfl⟩

/-- A connection is made at both places, between corresponding operators. It may lead to the result
if that is what the result accepts. -/
theorem mirrors_onGraph_connect {source source' target target' operand : Nat} {feedback : Bool}
    (hsource : s.Sourced source source') (htarget : target' = s.place target) (hroot : target ≠ 0)
    (hresult : target = 1 → operand = 0 ∧ feedback = false) :
    s.Mirrors (· = ·) (Draw.onGraph (Graph.connect source target operand feedback))
      (Draw.onGraph (Graph.connect source' target' operand feedback)) := by
  obtain ⟨hne, rfl⟩ := hsource
  subst htarget
  intro d e hde b e' hrun
  have hholds := hde.holds
  rw [Draw.onGraph, Edit.runOn_within, Draw.connect_runOn] at hrun
  by_cases ht : e.graph.contains (s.place target) = true
  · have ht' : d.graph.contains target = true := hholds.contains_place.1 ht
    rw [if_pos ht] at hrun
    cases hn' : e.graph.node? (s.place source) with
    | none => simp [hn'] at hrun
    | some n' =>
        have hs' : d.graph.contains source = true :=
          hholds.contains_place.1 (by rw [Graph.contains, hn']; rfl)
        obtain ⟨n, hn⟩ := Option.isSome_iff_exists.1 hs'
        have hsucceeding : n'.succeeding = n.succeeding.map s.placeEdge := by
          have heq := hholds.succeeding source hne
          rwa [Graph.succeeding, hn', Graph.succeeding, hn] at heq
        have hcontains : n'.succeeding.contains ⟨s.place target, operand, feedback⟩ =
            n.succeeding.contains ⟨target, operand, feedback⟩ := by
          rw [hsucceeding, Bool.eq_iff_iff, List.contains_iff_mem, List.contains_iff_mem]
          exact List.mem_map_of_injective placeEdge_injective (a := ⟨target, operand, feedback⟩)
        have hconnect : (Draw.onGraph (Graph.connect source target operand feedback)).runOn d =
            (.ok (), if n.succeeding.contains ⟨target, operand, feedback⟩ then d
              else d.withEdge source ⟨target, operand, feedback⟩) := by
          rw [Draw.onGraph, Edit.runOn_within, Draw.connect_runOn, if_pos ht', hn]
          dsimp only
          split <;> rfl
        refine ⟨(), _, hconnect, rfl, ?_⟩
        simp only [hn', hcontains] at hrun
        split at hrun
        · next hc =>
          obtain ⟨-, rfl⟩ := Prod.mk.inj hrun
          rw [if_pos hc]
          exact ⟨hholds, hde.nextVar, hde.nextSlot⟩
        · next hc =>
          obtain ⟨-, rfl⟩ := Prod.mk.inj hrun
          rw [if_neg hc]
          have hnew : ⟨target, operand, feedback⟩ ∉ d.graph.succeeding source := by
            rw [Graph.succeeding, hn]
            exact fun hmem => hc (List.contains_iff_mem.2 hmem)
          exact ⟨hholds.withEdge hs' hnew hne ht' hroot hresult, hde.nextVar, hde.nextSlot⟩
  · rw [if_neg ht] at hrun
    cases (Prod.mk.inj hrun).1

/-- Operators that correspond are connected at both places. -/
theorem mirrors_connect {source source' target target' operand : Nat}
    (hsource : s.Sourced source source') (htarget : s.Drawn target target') :
    s.Mirrors (· = ·) (Draw.connect source target operand)
      (Draw.connect source' target' operand) :=
  mirrors_onGraph_connect hsource htarget.2 htarget.ne_zero fun h => absurd h htarget.ne_one

/-- The same variable is fresh at both places. -/
theorem mirrorsSelf_freshVar : s.MirrorsSelf Draw.freshVar := by
  intro d e hde b e' hrun
  rw [Draw.freshVar_runOn] at hrun
  obtain ⟨hb, rfl⟩ := Prod.mk.inj hrun
  obtain rfl := Except.ok.inj hb
  refine ⟨_, _, Draw.freshVar_runOn d, ?_, hde.holds, ?_, hde.nextSlot⟩
  · rw [hde.nextVar]
  · rw [hde.nextVar]

/-- A change of both drafts that keeps what they share. -/
theorem mirrors_modify {f f' : Draft → Draft} (h : ∀ d e, s.Carries d e → s.Carries (f d) (f' e)) :
    s.Mirrors (· = ·) (modify f : Draw Unit) (modify f') := by
  intro d e hde b e' hrun
  obtain ⟨-, rfl⟩ := Prod.mk.inj hrun
  exact ⟨(), f d, rfl, rfl, h d e hde⟩

/-- A source is fed by the root at both places. -/
theorem mirrors_addSource {op : Operator Plan} (hop : op.kind ≠ .result) :
    s.Mirrors s.Drawn (Draw.addSource op) (Draw.addSource op) :=
  (mirrors_add hop).bind fun _ _ hid =>
    (mirrors_connect sourced_root hid).bind fun _ _ _ => mirrors_pure hid

/-- A plan of its own is drawn alike wherever it is needed. -/
theorem mirrorsSelf_nestedPlan (vars : VarSet) (body : DrawInto) :
    s.MirrorsSelf (nestedPlan vars body) := by
  intro d e hde plan e' hrun
  have hsame : d.cleared = e.cleared := by
    rw [Draft.cleared, Draft.cleared, hde.nextVar, hde.nextSlot]
  rw [nestedPlan_runOn] at hrun
  refine ⟨plan, ?_⟩
  rw [nestedPlan_runOn, hsame]
  split at hrun
  · next inner hinner =>
    obtain ⟨hok, rfl⟩ := Prod.mk.inj hrun
    rw [hok]
    exact ⟨_, rfl, rfl, hde.holds, rfl, rfl⟩
  · cases (Prod.mk.inj hrun).1

/-! ## Cursors -/

/-- A cursor and its place: at an operator that has been drawn, or at the result. -/
structure Feeds (s : Site) (c c' : Cursor) : Prop where
  target : c'.target = s.place c.target
  operand : c'.operand = c.operand
  drawn : 2 ≤ c.target ∨ (c.target = 1 ∧ c.operand = 0)

variable {c c' : Cursor}

theorem Drawn.feeds {id id' : Nat} (h : s.Drawn id id') (k : Nat) : s.Feeds ⟨id, k⟩ ⟨id', k⟩ :=
  ⟨h.2, rfl, .inl h.1⟩

/-- A cursor at an operator that has been drawn. -/
structure FeedsDrawn (s : Site) (c c' : Cursor) : Prop where
  target : s.Drawn c.target c'.target
  operand : c'.operand = c.operand

theorem FeedsDrawn.feeds (h : s.FeedsDrawn c c') : s.Feeds c c' :=
  ⟨h.target.2, h.operand, .inl h.target.1⟩

/-- What is attached beside it has corresponding places as well. -/
theorem FeedsDrawn.sibling (h : s.FeedsDrawn c c') (k : Nat) :
    s.FeedsDrawn (c.sibling k) (c'.sibling k) := ⟨h.target, rfl⟩

/-- Corresponding producers feed corresponding cursors. -/
theorem mirrors_feed {id id' : Nat} (h : s.Feeds c c') (hid : s.Sourced id id') :
    s.Mirrors (· = ·) (c.feed id) (c'.feed id') := by
  obtain ⟨target, operand⟩ := c
  obtain ⟨target', operand'⟩ := c'
  obtain ⟨htarget, hoperand, hdrawn⟩ := h
  dsimp only at htarget hoperand hdrawn
  subst htarget hoperand
  refine mirrors_onGraph_connect hid rfl ?_ fun hone => ?_
  · rcases hdrawn with h | ⟨h, -⟩
    · exact Nat.ne_of_gt (Nat.lt_of_lt_of_le Nat.zero_lt_two h)
    · exact fun h0 => absurd (h.symm.trans h0) Nat.one_ne_zero
  · rcases hdrawn with h | ⟨-, h⟩
    · exact absurd hone (Nat.ne_of_gt h)
    · exact ⟨h, rfl⟩

/-- An operator is attached at both places, and so is what follows. -/
theorem mirrors_attach {op : Operator Plan} (hop : op.kind ≠ .result) (h : s.Feeds c c') :
    s.Mirrors s.FeedsDrawn (c.attach op) (c'.attach op) :=
  (mirrors_add hop).bind fun _ _ hid =>
    (mirrors_feed h hid.sourced).bind fun _ _ _ => mirrors_pure ⟨hid, rfl⟩

theorem mirrors_attachSource {op : Operator Plan} (hop : op.kind ≠ .result) (h : s.Feeds c c') :
    s.Mirrors (· = ·) (c.attachSource op) (c'.attachSource op) :=
  (mirrors_addSource hop).bind fun _ _ hid => mirrors_feed h hid.sourced

/-- Operators are attached one below the other at both places. -/
theorem mirrors_attachAll {ops : List (Operator Plan)} (hops : ∀ op ∈ ops, op.kind ≠ .result)
    (h : s.Feeds c c') : s.Mirrors s.Feeds (c.attachAll ops) (c'.attachAll ops) :=
  mirrors_foldlM h fun _ _ hab op hop =>
    (mirrors_attach (hops op hop) hab).mono fun _ _ h => h.feeds

/-- A drawing that feeds corresponding cursors alike. -/
def MirrorsInto (s : Site) (draw : DrawInto) : Prop :=
  ∀ c c', s.Feeds c c' → s.Mirrors (· = ·) (draw c) (draw c')

end Site

end QuadAlgebra
