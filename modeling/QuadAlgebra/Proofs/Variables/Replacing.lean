import QuadAlgebra.Proofs.Optimization.Ranks
import QuadAlgebra.Proofs.Variables.Recasting

/-!
# Changes that keep graphs regular

Most of what rules do to the plan of a query or an update comes down to a few changes: operators and
edges are left out, an operator makes place for its inputs, and scans become one. Each of them
recasts the graph.
-/

namespace QuadAlgebra

namespace Graph

variable {γ : Type} {g g' : Graph γ} {shapes : Shapes} {size : Nat} {u : OperatorId}
  {op op' : Operator γ} {ops : OperatorId → Option (Operator γ)} {reads : OperatorId → Input → Prop}

namespace Regular

theorem ne_root (h : g.Regular false shapes) (hop : g.operator? u = some op)
    (hkind : op.kind ≠ .root) : u ≠ Graph.root := by
  rintro rfl
  rw [h.root] at hop
  exact hkind (Option.some.inj hop ▸ rfl)

/-- A union that is read back is not read by operators of other kinds. -/
theorem not_loop_of_reads (h : g.Regular false shapes) {i j : Input} (hi : g.Reads u i)
    (hop : g.operator? u = some op) (hkind : op.kind ∉ Operator.deduplicating)
    (hunion : g.operator? i.source = some .union) (hj : g.Reads i.source j)
    (hf : j.feedback = true) : False := by
  obtain ⟨-, ⟨op', hop', hkind'⟩, -⟩ := h.loopUnion i.source j hunion hj hf u i hi rfl
  obtain rfl := Option.some.inj (hop.symm.trans hop')
  exact hkind hkind'

/-- Renamings do not read filters, joins and the like. -/
theorem not_renaming_of_reads (h : g.Regular false shapes) {x : OperatorId} {i : Input}
    (hop : g.operator? i.source = some op) (hkind : op.kind ∉ Operator.deduplicating)
    (hi : g.Reads x i) {op' : Operator γ} (hop' : g.operator? x = some op') :
    op'.kind ≠ .replaceVar := fun hrenaming =>
  hkind (h.renamed x op' i op hop' hrenaming hi hop)

/-- Scans and probes read nothing but the root. -/
theorem not_source_of_reads (h : g.Regular false shapes) {x : OperatorId} {i : Input}
    (hop : g.operator? i.source = some op) (hkind : op.kind ≠ .root) (hi : g.Reads x i)
    {op' : Operator γ} (hop' : g.operator? x = some op') : op'.kind ∉ [.scan, .probe] :=
  fun hsource => h.ne_root hop hkind ((h.sources x op' hop' hsource).1 i hi)

/-! ## Leaving out -/

/-- Operators and edges may be left out as long as no join and no scan loses an operand, and
operators may be replaced by others that do the same work. -/
theorem thinned (h : g.Regular false shapes) (h' : g'.Wired size ops reads)
    (hroot : ops Graph.root = some .root)
    (hops : ∀ x op', ops x = some op' → ∃ op, g.operator? x = some op ∧ op'.Like op)
    (hreads : ∀ x i, reads x i → g.Reads x i)
    (hkept : ∀ x op i, ops x = some op → op.kind ∈ [.join, .scan, .probe] → g.Reads x i →
      ∃ i', reads x i' ∧ i'.operand = i.operand) : g'.Regular false shapes := by
  have hread {x : OperatorId} {i : Input} (hi : g'.Reads x i) : g.Reads x i :=
    hreads x i ((h'.reads x i).1 hi)
  refine Recast.regular (show g.Recast g' shapes shapes Eq fun _ => False from
    { linked := h'.linked
      root := (h'.operator? _).trans hroot
      root_old := id
      old := fun x op' _ hop => hops x op' ((h'.operator? x).symm.trans hop)
      shape := fun _ _ => rfl
      reads := fun x i' _ hi' => ⟨i', hread hi', rfl, rfl⟩
      kept := fun x op i _ hop hkind hi => ?_
      stands_self := fun _ _ => rfl
      stands_shape := fun a b D hab hD => hab ▸ hD
      sources := fun x op i _ _ _ hi => hread hi
      stands_old := fun S front a b _ _ hb hab _ => hab ▸ hb
      back := fun x i' hi' hf => .inl ⟨id, i', hread hi', hf, rfl⟩
      renamed := fun x op i _ _ hi => hread hi
      loopUnion := fun x i _ _ _ t j hj _ => hread hj
      fresh := fun _ => False.elim
      fresh_kind := fun _ _ => False.elim
      fresh_settled := fun _ _ _ => False.elim
      fresh_scan := fun _ _ => False.elim
      fresh_waits := fun _ _ _ _ _ _ _ _ => False.elim }) h
  obtain ⟨i', hi', hoperand⟩ := hkept x op i ((h'.operator? x).symm.trans hop) hkind hi
  exact ⟨i', (h'.reads x i').2 hi', hoperand⟩

/-- An operator may be replaced by one that does the same work. -/
theorem likened (h : g.Regular false shapes) (hop : g.operator? u = some op) (hlike : op'.Like op)
    (hroot : op.kind ≠ .root)
    (h' : g'.Wired size (fun x => if x = u then some op' else g.operator? x) g.Reads) :
    g'.Regular false shapes := by
  refine h.thinned h' ?_ (fun x op₁ hop₁ => ?_) (fun _ _ hi => hi) fun _ _ i _ _ hi => ⟨i, hi, rfl⟩
  · rw [if_neg (h.ne_root hop hroot).symm]
    exact h.root
  · split at hop₁
    · next hx =>
      obtain rfl := Option.some.inj hop₁
      exact ⟨op, hx ▸ hop, hlike⟩
    · exact ⟨op₁, hop₁, .same op₁⟩

end Regular

/-! ## Making place for inputs -/

/-- A regular graph in which the consumers of a union read its inputs instead. -/
structure Splicing (g g' : Graph γ) (shapes : Shapes) (u : OperatorId) (size : Nat) : Prop where
  regular : g.Regular false shapes
  site : g.SpliceSite u
  wired : g'.Wired size (fun x => if x = u then none else g.operator? x) (splicedReads g.Reads u)

namespace Splicing

variable {x front : OperatorId} {i : Input} {k : Nat} {f : Bool} {S : OperatorId → Prop}
  (h : g.Splicing g' shapes u size)

include h

theorem root_ne : Graph.root ≠ u := (h.regular.ne_root h.site.union Kind.noConfusion).symm

theorem old (hop : g'.operator? x = some op) : x ≠ u ∧ g.operator? x = some op := by
  rw [h.wired.operator?] at hop
  split at hop
  · cases hop
  · next hx => exact ⟨hx, hop⟩

theorem operator_root : g'.operator? Graph.root = some .root := by
  rw [h.wired.operator?, if_neg h.root_ne]
  exact h.regular.root

theorem front_ne (hfront : g'.operator? front ≠ none) : u ≠ front := by
  rintro rfl
  exact hfront (by rw [h.wired.operator?, if_pos rfl])

/-- The consumers of the union are read off the edges to them. -/
theorem reads_of_spared (hx : ∀ k f, ¬ g.Reads x ⟨u, k, f⟩) (hi : g'.Reads x i) : g.Reads x i := by
  rcases (h.wired.reads x i).1 hi with ⟨hi, -⟩ | ⟨_, f, _, hu, _⟩
  · exact hi
  · exact absurd hu (hx _ f)

theorem exists_reads (hi : g'.Reads x i) :
    ∃ j, g.Reads x j ∧ j.operand = i.operand ∧ g.InPlaceOf u i.source j.source := by
  rcases (h.wired.reads x i).1 hi with ⟨hi, -⟩ | ⟨j, f, hj, hx, he⟩
  · exact ⟨i, hi, rfl, .inl rfl⟩
  · exact ⟨_, hx, rfl, .inr ⟨rfl, j, hj, (congrArg Input.source he).symm⟩⟩

/-- Each operand that has been fed stays fed. -/
theorem kept (hop : g'.operator? x = some op) (hi : g.Reads x i) :
    ∃ j, g'.Reads x j ∧ j.operand = i.operand := by
  obtain ⟨source, operand, f⟩ := i
  by_cases hu : source = u
  · subst hu
    obtain ⟨j, hj⟩ := h.site.fed
    exact ⟨⟨j.source, operand, j.feedback || f⟩,
      (h.wired.reads _ _).2 (.inr ⟨j, f, hj, hi, rfl⟩), rfl⟩
  · exact ⟨⟨source, operand, f⟩, (h.wired.reads _ _).2 (.inl ⟨hi, (h.old hop).1, hu⟩), rfl⟩

theorem sources (hop : g'.operator? x = some op) (hkind : op.kind ∈ [.scan, .probe])
    (hi : g'.Reads x i) : g.Reads x i :=
  h.reads_of_spared (fun _ _ hx => h.root_ne
    ((h.regular.sources x op (h.old hop).2 hkind).1 _ hx).symm) hi

theorem renamed (hop : g'.operator? x = some op) (hkind : op.kind = .replaceVar)
    (hi : g'.Reads x i) : g.Reads x i :=
  h.reads_of_spared (fun _ _ hx => h.regular.not_renaming_of_reads h.site.union
    (Operator.not_deduplicating_of_relaying Operator.relaying_union) hx (h.old hop).2 hkind) hi

/-- Nothing new reads a union that is read back: that would have been read by the spliced one. -/
theorem loopUnion (hunion : g.operator? x = some .union) (hi : g.Reads x i)
    (hf : i.feedback = true) {t : OperatorId} {j : Input} (hj : g'.Reads t j)
    (hsource : j.source = x) : g.Reads t j := by
  rcases (h.wired.reads t j).1 hj with ⟨hj, -⟩ | ⟨k, f, hk, -, he⟩
  · exact hj
  · obtain rfl : k.source = x := (congrArg Input.source he).symm.trans hsource
    exact (h.regular.not_loop_of_reads hk h.site.union
      (Operator.not_deduplicating_of_relaying Operator.relaying_union) hunion hi hf).elim

/-! ### Loops that the union closes -/

/-- A union that closes a loop is read by an operator that removes duplicates, and by no other. -/
theorem exists_reader (hi : g.Reads u i) (hf : i.feedback = true) (hx : g.Reads x ⟨u, k, f⟩) :
    x ≠ u ∧ (∃ op, g.operator? x = some op ∧ op.kind ∈ Operator.deduplicating) ∧
      shapes x ≠ none ∧ ∀ y j, g.Reads y j → j.source = u → y = x := by
  obtain ⟨-, ⟨op, hop, hkind⟩, hshape, honly⟩ :=
    h.regular.loopUnion u i h.site.union hi hf x _ hx rfl
  refine ⟨?_, ⟨op, hop, hkind⟩, hshape, honly⟩
  rintro rfl
  obtain rfl := Option.some.inj (h.site.union.symm.trans hop)
  simp [Operator.kind, Operator.deduplicating] at hkind

/-- What has waited for the union waits for its only consumer. -/
theorem waiting (hgate : g.Gate shapes S u) (honly : ∀ y j, g.Reads y j → j.source = u → y = x)
    {y : OperatorId} (hy : S y) (hyu : y ≠ u) (hyx : y ≠ x) :
    g'.Waiting shapes (fun y => (S y ∧ y ≠ u) ∨ y = x) y := by
  have hfrom {j : Input} (hj : g'.Reads y j) : g.Reads y j ∧ j.source ≠ u := by
    rcases (h.wired.reads y j).1 hj with ⟨hj, -, hsource⟩ | ⟨_, _, _, hread, _⟩
    · exact ⟨hj, hsource⟩
    · exact absurd (honly y _ hread rfl) hyx
  have hwait := hgate.waiting y hy hyu
  refine ⟨hwait.1, fun op hop => ?_⟩
  have hwait := hwait.2 op (h.old hop).2
  refine ⟨hwait.ne_root, fun hjoin => ?_, fun hjoin j hj hpass => ?_⟩
  · obtain ⟨j, hj, hall⟩ := hwait.join hjoin
    have hsource : j.source ≠ u := fun hs => hyx (honly y j hj hs)
    refine ⟨j, (h.wired.reads y j).2 (.inl ⟨hj, hyu, hsource⟩), fun j' hj' hoperand => ?_⟩
    exact .inl ⟨hall j' (hfrom hj').1 hoperand, (hfrom hj').2⟩
  · exact .inl ⟨hwait.other hjoin j (hfrom hj).1 hpass, (hfrom hj).2⟩

/-- The only consumer of a union that closes a loop closes it in its stead. -/
theorem leadsBack (hi : g.Reads u i) (hf : i.feedback = true) (hx : g.Reads x ⟨u, k, f⟩) :
    g'.LeadsBack shapes i.source x ∧ g'.operator? x ≠ some .union := by
  obtain ⟨hxu, ⟨op, hop, hkind⟩, hshape, honly⟩ := h.exists_reader hi hf hx
  obtain ⟨S, hgate, hS⟩ := h.regular.exists_gate hi hf
  have hop' : g'.operator? x = some op := by
    rw [h.wired.operator?, if_neg hxu]
    exact hop
  refine ⟨.loop op hop' (List.mem_cons_of_mem _ hkind) hshape
    ⟨fun y => (S y ∧ y ≠ u) ∨ y = x, .inr rfl, .inl ⟨hS, ?_⟩, ?_⟩, ?_⟩
  · exact fun hsource => (h.site.apart i u hi i hi hsource).1 rfl
  · rintro y (⟨hy, hyu⟩ | hy) hne
    · exact h.waiting hgate honly hy hyu hne
    · exact absurd hy hne
  · rw [hop']
    rintro hunion
    obtain rfl := Option.some.inj hunion
    simp [Operator.kind, Operator.deduplicating] at hkind

theorem back (hi : g'.Reads x i) (hf : i.feedback = true) :
    (∃ j, g.Reads x j ∧ j.feedback = true ∧ g.InPlaceOf u i.source j.source) ∨
      g'.LeadsBack shapes i.source x ∧ g'.operator? x ≠ some .union := by
  rcases (h.wired.reads x i).1 hi with ⟨hi, -⟩ | ⟨j, f, hj, hx, he⟩
  · exact .inl ⟨i, hi, hf, .inl rfl⟩
  · have hsource : i.source = j.source := by rw [he]
    cases f with
    | true => exact .inl ⟨_, hx, rfl, .inr ⟨rfl, j, hj, hsource.symm⟩⟩
    | false =>
        have hback : j.feedback = true := by
          rw [he] at hf
          simpa using hf
        rw [hsource]
        exact .inr (h.leadsBack hj hback hx)

/-- The consumers of a union may read its inputs instead. -/
theorem spliced : g'.Regular false shapes :=
  Recast.regular (show g.Recast g' shapes shapes (g.InPlaceOf u) fun _ => False from
    { linked := h.wired.linked
      root := h.operator_root
      root_old := id
      old := fun _ op _ hop => ⟨op, (h.old hop).2, .same op⟩
      shape := fun _ _ => rfl
      reads := fun _ _ _ hi => h.exists_reads hi
      kept := fun _ _ _ _ hop _ hi => h.kept hop hi
      stands_self := fun _ _ => .inl rfl
      stands_shape := fun _ _ _ hab hD =>
        h.regular.shape_of_inPlaceOf h.site.union Operator.relaying_union hab hD
      sources := fun _ _ _ _ hop hkind hi => h.sources hop hkind hi
      stands_old := fun _ _ _ _ hgate hfront hb hab _ =>
        hgate.mem_of_inPlaceOf h.site.union Operator.relaying_union (h.front_ne hfront) hab hb
      back := fun _ _ hi hf => (h.back hi hf).imp_left fun hback => ⟨id, hback⟩
      renamed := fun _ _ _ hop hkind hi => h.renamed hop hkind hi
      loopUnion := fun _ _ hunion hi hf _ _ hj hsource => h.loopUnion hunion hi hf hj hsource
      fresh := fun _ => False.elim
      fresh_kind := fun _ _ => False.elim
      fresh_settled := fun _ _ _ => False.elim
      fresh_scan := fun _ _ => False.elim
      fresh_waits := fun _ _ _ _ _ _ _ _ => False.elim }) h.regular

end Splicing

/-! ## Scans in the place of joins -/

namespace Regular

/-- The merged scan has the variables of all scans. -/
theorem mem_vars_mergeScans {scans : List IndexScan} {scan : IndexScan}
    (hsame : PlanRule.sameSource scans = true) (hmerge : PlanRule.mergeScans scans = some scan)
    {v : Variable} : v ∈ scan.vars ↔ ∃ s ∈ scans, v ∈ s.vars := by
  cases scans with
  | nil => cases hmerge
  | cons s rest =>
      obtain rfl := Option.some.inj hmerge
      have hgraph (t : IndexScan) (ht : t ∈ rest) : t.graph = s.graph := by
        have ht := List.all_eq_true.1 hsame t ht
        simp only [Bool.and_eq_true, beq_iff_eq] at ht
        exact ht.2
      simp only [IndexScan.vars, OrdSet.mem_union, OrdSet.mem_unionOf, List.mem_append,
        List.mem_flatMap, List.mem_cons]
      constructor
      · rintro (⟨p, hp | ⟨t, ht, hp⟩, hv⟩ | hv)
        · exact ⟨s, .inl rfl, .inl ⟨p, hp, hv⟩⟩
        · exact ⟨t, .inr ht, .inl ⟨p, hp, hv⟩⟩
        · exact ⟨s, .inl rfl, .inr hv⟩
      · rintro ⟨t, rfl | ht, ⟨p, hp, hv⟩ | hv⟩
        · exact .inl ⟨p, .inl hp, hv⟩
        · exact .inr hv
        · exact .inl ⟨p, .inr ⟨t, ht, hp⟩, hv⟩
        · exact .inr (hgraph t ht ▸ hv)

/-- The shape of a scan, if it has one, is given by its patterns. -/
theorem shape_scan (h : g.Regular false shapes) {x : OperatorId} {s : IndexScan}
    (hop : g.operator? x = some (.scan s)) {D : VarSet} (hD : shapes x = some D) :
    D = ∅ ∪ s.vars := by
  obtain ⟨hroot, i, hi⟩ := h.sources x _ hop (by simp [Operator.kind])
  obtain ⟨-, hfixes⟩ := h.settled x _ D hop hD
  obtain ⟨E, hE, hfix⟩ := hfixes i hi
  rw [hroot i hi, h.root_shape] at hE
  obtain rfl := Option.some.inj hE
  exact hfix

/-- Nothing but the root is read by a scan, so no gate waits for it. -/
theorem not_gate_of_scan (h : g.Regular false shapes) {S : OperatorId → Prop} {front x : OperatorId}
    (hgate : g.Gate shapes S front) {s : IndexScan} (hop : g.operator? x = some (.scan s)) :
    ¬ S x := by
  have hne {y : OperatorId} {op' : Operator γ} (hop' : g.operator? y = some op')
      (hkind : op'.kind ∉ Operator.gathering) : y ≠ front := by
    rintro rfl
    obtain ⟨op₁, hop₁, hgathering⟩ := hgate.gathering
    exact hkind (Option.some.inj (hop'.symm.trans hop₁) ▸ hgathering)
  intro hx
  obtain ⟨hroot, i, hi⟩ := h.sources x _ hop (by simp [Operator.kind])
  have hwait := (hgate.waiting x hx (hne hop (by simp [Operator.kind, Operator.gathering]))).2 _ hop
  have hrootS := hwait.other (by simp [Operator.kind]) i hi
    (by simp [Operator.Passes, Operator.kind])
  rw [hroot i hi] at hrootS
  have hwait := (hgate.waiting _ hrootS
    (hne h.root (by simp [Operator.kind, Operator.gathering]))).2 _ h.root
  exact hwait.ne_root rfl

end Regular

namespace Merging

variable {x front : OperatorId} {i : Input} {inputs : List Input} {scans : List IndexScan}
  {scan : IndexScan} {S : OperatorId → Prop} (h : g.Merging g' u inputs scans scan)

include h

theorem left (hx : x ≠ g.slots.length) (hop : g'.operator? x = some op) :
    x ≠ u ∧ x ∉ inputs.map Input.source := by
  rw [h.wired.operator?] at hop
  split at hop
  · cases hop
  · next hgone => exact not_or.1 hgone

theorem front_ne (hfront : g'.operator? front ≠ none) : u ≠ front := by
  rintro rfl
  exact hfront (by rw [h.wired.operator?, if_pos (.inl rfl)])

theorem operator_none : g.operator? g.slots.length = none :=
  (Wired.of_linked h.linked).eq_none_of_le le_rfl

/-- The merged scan reads the root, and nothing else. -/
theorem reads_merged : g'.Reads g.slots.length i ↔ i = ⟨Graph.root, 0, false⟩ := by
  constructor
  · intro hi
    rcases h.reads_cases hi with ⟨-, he⟩ | ⟨hne, -⟩
    · exact he
    · exact absurd rfl hne
  · exact fun he => (h.wired.reads _ _).2 (.inr (.inl ⟨rfl, he⟩))

/-- What an operator reads is as it was unless it has read the join. -/
theorem reads_of_spared (hx : ∀ k f, ¬ g.Reads x ⟨u, k, f⟩) (hne : x ≠ g.slots.length)
    (hi : g'.Reads x i) : g.Reads x i := by
  obtain ⟨-, hi'⟩ := (h.reads_cases hi).resolve_left fun hnew => hne hnew.1
  by_cases hs : i.source = g.slots.length
  · rw [hs, part_new] at hi'
    exact absurd hi' (hx _ _)
  · rwa [part_of_ne hs] at hi'

/-- Each operand that has been fed stays fed. -/
theorem kept (hx : x ≠ g.slots.length) (hop : g'.operator? x = some op) (hi : g.Reads x i) :
    ∃ j, g'.Reads x j ∧ j.operand = i.operand := by
  obtain ⟨source, operand, f⟩ := i
  by_cases hu : source = u
  · exact ⟨⟨g.slots.length, operand, f⟩, h.reads_new.2 (hu ▸ hi), rfl⟩
  · obtain ⟨hxu, hxs⟩ := h.left hx hop
    exact ⟨⟨source, operand, f⟩, (h.wired.reads _ _).2 (.inl ⟨hi, hxu, hu, hxs⟩), rfl⟩

theorem back (hi : g'.Reads x i) (hf : i.feedback = true) : x ≠ g.slots.length ∧
    ∃ j, g.Reads x j ∧ j.feedback = true ∧ part g u i.source = j.source := by
  rcases h.reads_cases hi with ⟨-, rfl⟩ | ⟨hx, hi⟩
  · cases hf
  · exact ⟨hx, _, hi, hf, rfl⟩

section Regular

variable (hregular : g.Regular false shapes)

include hregular

theorem sources (hx : x ≠ g.slots.length) (hop : g'.operator? x = some op)
    (hkind : op.kind ∈ [.scan, .probe]) (hi : g'.Reads x i) : g.Reads x i :=
  h.reads_of_spared (fun _ _ hread => hregular.not_source_of_reads h.site.join Kind.noConfusion
    hread (h.operator_old hx hop) hkind) hx hi

theorem renamed (hop : g'.operator? x = some op) (hkind : op.kind = .replaceVar)
    (hi : g'.Reads x i) : g.Reads x i := by
  have hx : x ≠ g.slots.length := by
    rintro rfl
    obtain rfl := Option.some.inj (h.operator_new.symm.trans hop)
    cases hkind
  exact h.reads_of_spared (fun _ _ hread => hregular.not_renaming_of_reads h.site.join
    (by simp [Operator.kind, Operator.deduplicating]) hread (h.operator_old hx hop) hkind) hx hi

theorem loopUnion (hunion : g.operator? x = some .union) {t : OperatorId} {j : Input}
    (hj : g'.Reads t j) (hsource : j.source = x) : g.Reads t j := by
  rcases h.reads_cases hj with ⟨-, rfl⟩ | ⟨-, hj'⟩
  · subst hsource
    cases hunion.symm.trans hregular.root
  · rwa [part_of_ne (hsource ▸ h.ne_new hunion)] at hj'

/-- The merged scan has the variables of the join: those of all of its scans. -/
theorem settled {D : VarSet} (hD : shapes u = some D) : D = ∅ ∪ scan.vars := by
  obtain ⟨part, hpart, hdomain⟩ : ∃ part : Nat → VarSet,
    (∀ i, g.Reads u i → shapes i.source = some (part i.operand)) ∧
      ∀ v, v ∈ D ↔ ∃ i, g.Reads u i ∧ v ∈ part i.operand :=
    hregular.settled u .join D h.site.join hD
  have hreads (i : Input) : g.Reads u i ↔ i ∈ inputs := h.site.reads_iff h.linked
  have hvars {i : Input} {s : IndexScan} (hi : i ∈ inputs)
      (hs : g.operator? i.source = some (.scan s)) : part i.operand = ∅ ∪ s.vars :=
    hregular.shape_scan hs (hpart i ((hreads i).2 hi))
  refine OrdSet.eq_of_mem_iff fun v => ?_
  rw [hdomain, OrdSet.mem_union, Regular.mem_vars_mergeScans h.site.same h.merge]
  constructor
  · rintro ⟨i, hi, hv⟩
    have hi := (hreads i).1 hi
    obtain ⟨s, hmem, hs⟩ := exists_of_forall₂ h.site.scanned hi
    rw [hvars hi hs] at hv
    exact .inr ⟨s, hmem, (OrdSet.mem_union.1 hv).resolve_left (OrdSet.not_mem_empty v)⟩
  · rintro (hv | ⟨s, hmem, hv⟩)
    · exact absurd hv (OrdSet.not_mem_empty v)
    · obtain ⟨i, hi, hs⟩ := exists_of_forall₂ h.site.scanned.flip hmem
      exact ⟨i, (hreads i).2 hi, (hvars hi hs).symm ▸ OrdSet.mem_union.2 (.inr hv)⟩

/-- A gate that the join were part of would wait for the root. -/
theorem not_gate (hgate : g.Gate shapes S front) (hne : u ≠ front) : ¬ S u := by
  intro hu
  obtain ⟨i, hi, hall⟩ := ((hgate.waiting u hu hne).2 _ h.site.join).join rfl
  obtain ⟨s, hs⟩ := h.site.exists_scan ((h.site.reads_iff h.linked).1 hi)
  exact hregular.not_gate_of_scan hgate hs (hall i hi rfl)

theorem settled_merged {D : VarSet} (hD : shapes (part g u g.slots.length) = some D) :
    g'.Settled (fun x => shapes (part g u x)) g.slots.length (.scan scan) D := by
  rw [part_new] at hD
  refine ⟨by simp [Operator.kind, Operator.steady], fun i hi => ⟨∅, ?_, h.settled hregular hD⟩⟩
  rw [h.reads_merged.1 hi]
  exact (congrArg shapes (part_of_ne (h.ne_new h.root))).trans hregular.root_shape

/-- A single scan may take the place of a join of scans. -/
theorem merged : g'.Regular false fun x => shapes (part g u x) := by
  refine Recast.regular (show g.Recast g' shapes (fun x => shapes (part g u x))
      (fun a b => part g u a = b) (fun x => x = g.slots.length) from
    { linked := h.wired.linked
      root := h.operator_root
      root_old := h.ne_new h.root
      old := fun x op hx hop => ⟨op, h.operator_old hx hop, .same op⟩
      shape := fun x hx => congrArg shapes (part_of_ne hx)
      reads := fun x i hx hi =>
        ⟨_, ((h.reads_cases hi).resolve_left fun hnew => hx hnew.1).2, rfl, rfl⟩
      kept := fun _ _ _ hx hop _ hi => h.kept hx hop hi
      stands_self := fun _ ha => part_of_ne ha
      stands_shape := fun a b D hab hD => hab ▸ hD
      sources := fun _ _ _ hx hop hkind hi => h.sources hregular hx hop hkind hi
      stands_old := fun S front a b _ _ hb hab ha => (hab.symm.trans (part_of_ne ha)) ▸ hb
      back := fun _ _ hi hf => .inl (h.back hi hf)
      renamed := fun _ _ _ hop hkind hi => h.renamed hregular hop hkind hi
      loopUnion := fun _ _ hunion _ _ _ _ hj hsource => h.loopUnion hregular hunion hj hsource
      fresh := fun n hn => hn ▸ h.operator_none
      fresh_kind := fun n op hn hop => ?kind
      fresh_settled := fun n op D hn hop hD => ?settled
      fresh_scan := fun n op hn _ _ => ?scan
      fresh_waits := fun S front n b hgate hfront hb hab hn => ?waits }) hregular
  case kind =>
    subst hn
    obtain rfl := Option.some.inj (h.operator_new.symm.trans hop)
    simp [Operator.kind]
  case settled =>
    subst hn
    obtain rfl := Option.some.inj (h.operator_new.symm.trans hop)
    exact h.settled_merged hregular hD
  case scan =>
    subst hn
    exact ⟨fun i hi => congrArg Input.source (h.reads_merged.1 hi), _, h.reads_merged.2 rfl⟩
  case waits =>
    subst hn
    rw [part_new] at hab
    exact absurd (hab ▸ hb) (h.not_gate hregular hgate (h.front_ne hfront))

end Regular

end Merging

end Graph

end QuadAlgebra
