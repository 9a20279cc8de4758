import QuadAlgebra.Proofs.Planning.Nodes

/-!
# Repeated paths

Copies of a path in a row meet in fresh variables and feed one join, operand by operand. A solution
fits the copies if it passes through so many steps of the relation of the path, and every sequence
of steps can be bound to the fresh variables (`Trail`). With one more path behind them the copies
draw the pairs of the composition (`DrawsPairs.afterCopies`), which gives chains of fixed length and
bounded repetition.
-/

namespace QuadAlgebra

open Relation (Comp)
open Solution (Ends Through)

variable {src : Source} {graph : Option Term} {pp : PathPlanner} {path final : DrawPath}
  {R R' : Term → Term → Prop} {triples : List Triple} {s o start last : Item} {legs : List Leg}
  {n lo hi : Nat}

/-! ## Copies -/

/-- Relations in a row, from one item to another, through variables that are handed out from some
number on. -/
structure Trail (R : Term → Term → Prop) (lo : Nat) (start last : Item) (n : Nat)
    (legs : List Leg) : Prop where
  start_mem : start = last ∨ start ∈ legs.flatMap Leg.items
  sound : ∀ full : Solution, (∀ l ∈ legs, full.Fits l) → ∀ a, full.resolve start = some a →
    ∃ b, full.resolve last = some b ∧ Steps R n a b
  complete : ∀ (full : Solution) (a b : Term), full.resolve start = some a → Steps R n a b →
    ∃ full' : Solution, (∀ v : Variable, v.OlderThan lo → full'.get? v = full.get? v) ∧
      full'.resolve last = some b ∧ ∀ l ∈ legs, full'.Fits l

theorem resolve_eq_of_olderThan {full full' : Solution} {i : Item}
    (h : ∀ v : Variable, v.OlderThan lo → full'.get? v = full.get? v)
    (hi : i.CanEnd triples lo) : full'.resolve i = full.resolve i := by
  cases i with
  | term t => rfl
  | var v => exact h v hi

theorem Trail.nil : Trail R lo start start 0 [] :=
  ⟨.inl rfl, fun _ _ a ha => ⟨a, ha, rfl⟩, fun full a b ha hab =>
    ⟨full, fun _ _ => rfl, by rw [ha, hab], fun l hl => absurd hl List.not_mem_nil⟩⟩

theorem Trail.cons (hstart : start.CanEnd triples lo)
    (h : Trail R hi (.var (.interim lo)) last n legs) (hlo : lo < hi) :
    Trail R lo start last (n + 1) (⟨start, .var (.interim lo), R⟩ :: legs) where
  start_mem := .inr (by simp [Leg.items])
  sound full hfits a ha := by
    obtain ⟨a', c, ha', hc, hac⟩ := hfits _ List.mem_cons_self
    obtain rfl : a = a' := Option.some.inj (ha.symm.trans ha')
    obtain ⟨b, hb, hcb⟩ := h.sound full (fun l hl => hfits l (List.mem_cons_of_mem _ hl)) c hc
    exact ⟨b, hb, c, hac, hcb⟩
  complete full a b ha hab := by
    obtain ⟨c, hac, hcb⟩ := hab
    have hm : Solution.resolve (full.insert (.interim lo) c) (.var (.interim lo)) = some c := by
      simp [Solution.get?_insert]
    obtain ⟨full', hold, hb, hfits⟩ := h.complete _ c b hm hcb
    have hstart' : full'.resolve start = some a := by
      rw [resolve_eq_of_olderThan hold (hstart.mono (Nat.le_of_lt hlo)),
        Solution.resolve_insert (hstart.ne_interim (Nat.le_refl _)), ha]
    have hmiddle : full'.resolve (.var (.interim lo)) = some c := by
      rw [resolve_eq_of_olderThan hold (Item.CanEnd.interim hlo : Item.CanEnd [] hi _), hm]
    refine ⟨full', fun v hv => ?_, hb,
      List.forall_mem_cons.2 ⟨⟨a, c, hstart', hmiddle, hac⟩, hfits⟩⟩
    rw [hold v (hv.mono (Nat.le_of_lt hlo)), Solution.get?_insert, if_neg (hv _ (Nat.le_refl _))]

/-- Solutions that fit a trail and one relation more. -/
theorem Trail.through_eq_ends (h : Trail R lo s last n legs) (hs : s.CanEnd triples lo)
    (ho : o.CanEnd triples lo) :
    Through (legs ++ [Leg.mk last o R']) [s, o] = Ends s o (Comp (Steps R n) R') := by
  refine Solution.through_eq_ends (fun full hfits => ?_) fun full hfits => ?_
  · have hlegs : ∀ l ∈ legs, full.Fits l := fun l hl => hfits l (List.mem_append_left _ hl)
    obtain ⟨c, b, hc, hb, hcb⟩ := hfits ⟨last, o, R'⟩ (by simp)
    obtain ⟨a, ha⟩ : ∃ a, full.resolve s = some a := by
      rcases h.start_mem with rfl | hmem
      · exact ⟨c, hc⟩
      · obtain ⟨l, hl, hi⟩ := List.mem_flatMap.1 hmem
        obtain ⟨a, b, ha, hb, -⟩ := hlegs l hl
        rcases List.mem_cons.1 hi with rfl | hi
        · exact ⟨a, ha⟩
        · exact ⟨b, List.mem_singleton.1 hi ▸ hb⟩
    obtain ⟨c', hc', hac⟩ := h.sound full hlegs a ha
    obtain rfl : c = c' := Option.some.inj (hc.symm.trans hc')
    exact ⟨a, b, ha, hb, c, hac, hcb⟩
  · obtain ⟨a, b, ha, hb, c, hac, hcb⟩ := hfits
    obtain ⟨full', hold, hc, hlegs⟩ := h.complete full a c ha hac
    have hs' := resolve_eq_of_olderThan hold hs
    have ho' := resolve_eq_of_olderThan hold ho
    refine ⟨full', fun l hl => ?_, Solution.on_congr ?_⟩
    · rcases List.mem_append.1 hl with hl | hl
      · exact hlegs l hl
      · rw [List.mem_singleton.1 hl]
        exact ⟨c, b, hc, ho'.trans hb, hcb⟩
    · exact List.forall_mem_cons.2 ⟨hs', List.forall_mem_singleton.2 ho'⟩

/-- A path that feeds a new operand of an operator that nobody reads yet. -/
theorem DrawsPairs.feeding (h : DrawsPairs src graph path R) {d d₁ d' : Draft}
    {join out : OperatorId} {k : Nat} (hd : d.Sound) (hroot : join ≠ Graph.root)
    (hold : join < d.size) (hunread : d.graph.Unread join)
    (hnew : ∀ i ∈ d.graph.inputs join, i.operand < k)
    (hs : s.CanEnd (src.activeTriples graph) d.nextVar)
    (ho : o.CanEnd (src.activeTriples graph) d.nextVar)
    (hrun : (path s o).runOn d = (.ok out, d₁))
    (hconnect : (Draw.connect out join k).runOn d₁ = (.ok (), d')) :
    Placed src True (· = join) d d' [out] [Ends s o R] ∧
      d'.graph.inputs join = d.graph.inputs join ++ [⟨out, k, false⟩] := by
  have hplaced := h s o d d₁ out hd hs ho hrun
  have hin : d₁.graph.inputs join = d.graph.inputs join :=
    hplaced.ext.inputs_eq join hold not_false
  have hfed := Draft.FedBy.of_connect hplaced.ext.sound hroot (hin ▸ hnew) hconnect
  refine ⟨(hplaced.mono fun _ h => h.elim).feed hfed rfl hold hroot hunread ?_, ?_⟩
  · exact List.forall_mem_singleton.2 (hplaced.range out List.mem_cons_self).1
  · rw [hfed.inputs, if_pos rfl, hin]

/-- Copies feed a join that nobody reads yet, from some operand on. -/
theorem placed_copies (h : DrawsPairs src graph path R) {join : OperatorId}
    (hroot : join ≠ Graph.root) : ∀ (n first : Nat) (start last : Item) (d d' : Draft), d.Sound →
      join < d.size → d.graph.Unread join → (∀ i ∈ d.graph.inputs join, i.operand < first) →
        start.CanEnd (src.activeTriples graph) d.nextVar →
          (PathPlanner.copies path join first n start).runOn d = (.ok last, d') →
            ∃ outs legs, outs.length = n ∧
              Placed src True (· = join) d d' outs (legs.map Leg.ends) ∧
              d'.graph.inputs join = d.graph.inputs join ++
                (outs.zipIdx first).map (fun p => ⟨p.1, p.2, false⟩) ∧
              last.CanEnd (src.activeTriples graph) d'.nextVar ∧
              Trail R d.nextVar start last n legs := by
  intro n
  induction n with
  | zero =>
      intro first start last d d' hd _ _ _ hstart hrun
      obtain ⟨hlast, rfl⟩ := Prod.mk.inj hrun
      obtain rfl := Except.ok.inj hlast
      exact ⟨[], [], rfl, .nil hd, by simp, hstart, .nil⟩
  | succ n ih =>
      intro first start last d d' hd hold hunread hoperands hstart hrun
      obtain ⟨next, d₁, hfresh, hrun⟩ := Edit.runOn_bind_eq_ok.1 hrun
      obtain ⟨rfl, hd₁, hnext, hgraph, hplaced⟩ :=
        freshVar_eq_ok src True hd hfresh
      obtain ⟨out, d₂, hout, hrun⟩ := Edit.runOn_bind_eq_ok.1 hrun
      obtain ⟨⟨⟩, d₃, hconnect, hrun⟩ := Edit.runOn_bind_eq_ok.1 hrun
      have hmiddle : Item.CanEnd (src.activeTriples graph) d₁.nextVar
          (.var (.interim d.nextVar)) := .interim (by omega)
      have hold₁ : join < d₁.size := by
        rw [Draft.size, hgraph]
        exact hold
      obtain ⟨hfirst, hin⟩ := h.feeding hd₁ hroot hold₁ (hgraph ▸ hunread)
        (hgraph ▸ hoperands) (hstart.mono (by omega)) hmiddle hout hconnect
      rw [hgraph] at hin
      obtain ⟨outs, legs, hlen, hrest, hinputs, hlast, htrail⟩ := ih (first + 1) _ last d₃ d'
        hfirst.ext.sound (Nat.lt_of_lt_of_le hold₁ hfirst.ext.size_le)
        (hfirst.ext.unread hold₁ hroot (hgraph ▸ hunread)) (fun i hi => by
          rw [hin] at hi
          rcases List.mem_append.1 hi with hi | hi
          · exact Nat.lt_succ_of_lt (hoperands i hi)
          · rw [List.mem_singleton.1 hi]
            exact Nat.lt_succ_self first) (hmiddle.mono hfirst.ext.nextVar_le) hrun
      refine ⟨out :: outs, ⟨start, .var (.interim d.nextVar), R⟩ :: legs, by simp [hlen],
        hplaced (hfirst.append hrest fun id he => he ▸ hold₁), ?_, hlast,
        htrail.cons hstart (Nat.lt_of_lt_of_le (by omega) hfirst.ext.nextVar_le)⟩
      rw [hinputs, hin, List.append_assoc]
      simp [List.zipIdx_cons]

/-- Copies of a path in a row and another path behind them. -/
theorem DrawsPairs.afterCopies (hpp : pp.ForStore graph) (h : DrawsPairs src graph path R)
    (h' : DrawsPairs src graph final R') (n : Nat) :
    DrawsPairs src graph (fun s o => do
      let join ← Draw.add .join
      let last ← PathPlanner.copies path join 0 n s
      Draw.connect (← final last o) join n
      pp.project join s o) (Comp (Steps R n) R') := by
  intro s o d d' out hd hs ho hrun
  obtain ⟨join, d₁, hadd, hrun⟩ := Edit.runOn_bind_eq_ok.1 hrun
  rw [Draw.add_runOn] at hadd
  obtain ⟨hjoin, rfl⟩ := Prod.mk.inj hadd
  obtain rfl := Except.ok.inj hjoin
  obtain ⟨last, d₂, hcopies, hrun⟩ := Edit.runOn_bind_eq_ok.1 hrun
  obtain ⟨closing, d₃, hfinal, hrun⟩ := Edit.runOn_bind_eq_ok.1 hrun
  obtain ⟨⟨⟩, d₄, hconnect, hrun⟩ := Edit.runOn_bind_eq_ok.1 hrun
  have hroot : d.size ≠ Graph.root := Nat.ne_of_gt hd.size_pos
  have hold : d.size < (d.withOperator .join).size := by simp
  have hunread : (d.withOperator .join).graph.Unread d.size := Graph.unread_withOperator hd.tidy
  have hnone : (d.withOperator .join).graph.inputs d.size = [] := by
    rw [Draft.inputs_withOperator, hd.inputs_eq_nil (Nat.le_refl _)]
  obtain ⟨outs, legs, hlen, hrow, hinputs, hlast, htrail⟩ := placed_copies h hroot n 0 s last _ d₂
    hd.withOperator hold hunread (by simp [hnone]) hs hcopies
  have hlate : (d.withOperator .join).nextVar ≤ d₂.nextVar := hrow.ext.nextVar_le
  have hin : d₂.graph.inputs d.size = (outs.zipIdx 0).map fun p => ⟨p.1, p.2, false⟩ := by
    rw [hinputs, hnone, List.nil_append]
  -- the last path takes the operand behind all copies
  obtain ⟨hend, hread⟩ := h'.feeding hrow.ext.sound hroot
    (Nat.lt_of_lt_of_le hold hrow.ext.size_le) (hrow.ext.unread hold hroot hunread) (fun i hi => by
      rw [hin] at hi
      obtain ⟨p, hp, rfl⟩ := List.mem_map.1 hi
      exact hlen ▸ (List.mem_zipIdx' hp).1) hlast (ho.mono hlate) hfinal hconnect
  have hall := hrow.append hend fun id he => he ▸ hold
  have hsets : legs.map Leg.ends ++ [Ends last o R'] =
      (legs ++ [Leg.mk last o R']).map Leg.ends := by
    rw [List.map_append]
    rfl
  rw [hsets] at hall
  have hread : d₄.graph.inputs d.size = PathPlanner.inputsFrom (outs ++ [closing]) := by
    rw [hread, hin, PathPlanner.inputsFrom, List.zipIdx_append, List.map_append, hlen, Nat.zero_add]
    rfl
  have hjoined := Placed.addedBefore hd hall hread (fun i hi => (PathPlanner.mem_inputsFrom hi).1)
    .join fun limit G F hscene hG hGin hsettles =>
      hscene.settles_join (by simp) hG hGin hsettles
  have hstart : s ∈ (legs ++ [Leg.mk last o R']).flatMap Leg.items := by
    rw [List.flatMap_append, List.mem_append]
    exact htrail.start_mem.symm.imp_right fun he => by simp [he, Leg.items]
  have hstop : o ∈ (legs ++ [Leg.mk last o R']).flatMap Leg.items := by simp [Leg.items]
  have hdone := hjoined.project (s := s) (o := o) hpp hrun fun r => Solution.through_on
    (List.forall_mem_cons.2 ⟨hstart, List.forall_mem_singleton.2 hstop⟩)
  rwa [htrail.through_eq_ends hs ho] at hdone

/-! ## Bounded repetition -/

theorem DrawsPairs.chain (hpp : pp.ForStore graph) (h : DrawsPairs src graph path R) (n : Nat) :
    DrawsPairs src graph (pp.chain path (n + 1)) (Steps R (n + 1)) := by
  cases n with
  | zero => exact h.congr (by funext s o; rfl) steps_one
  | succ n =>
      refine (h.afterCopies hpp h (n + 1)).congr ?_ (comp_steps (n + 1)).symm
      funext s o
      rw [PathPlanner.chain, if_neg (by omega)]
      rfl

theorem DrawsPairs.withZero (hpp : pp.ForStore graph) (h : DrawsPairs src graph path R) :
    DrawsPairs src graph (pp.withZero path)
      fun a b => SameNode (src.activeTriples graph) a b ∨ R a b := by
  refine (((drawsPairs_zeroLength hpp).union h).distinct pp).congr ?_ rfl
  simp only [bind_assoc]
  rfl

theorem ends_exists {P : Nat → Prop} {Q : Nat → Term → Term → Prop} (r : Solution) :
    Ends s o (fun a b => ∃ n, P n ∧ Q n a b) r ↔ ∃ n, P n ∧ Ends s o (Q n) r := by
  simp only [Solution.ends_iff, Solution.Fits]
  constructor
  · rintro ⟨⟨a, b, ha, hb, n, hn, hab⟩, hon⟩
    exact ⟨n, hn, ⟨a, b, ha, hb, hab⟩, hon⟩
  · rintro ⟨n, hn, ⟨a, b, ha, hb, hab⟩, hon⟩
    exact ⟨⟨a, b, ha, hb, n, hn, hab⟩, hon⟩

theorem mem_lengths {min max n : Nat} :
    n ∈ (List.range (max + 1 - min)).map (· + min) ↔ min ≤ n ∧ n ≤ max := by
  simp only [List.mem_map, List.mem_range]
  constructor
  · rintro ⟨k, hk, rfl⟩
    omega
  · exact fun h => ⟨n - min, by omega, by omega⟩

theorem DrawsPairs.positiveRange (hpp : pp.ForStore graph) (h : DrawsPairs src graph path R)
    {min : Nat} (hmin : 0 < min) (max : Nat) : DrawsPairs src graph (pp.positiveRange path min max)
      fun a b => ∃ n, (min ≤ n ∧ n ≤ max) ∧ Steps R n a b := by
  intro s o d d' out hd hs ho hrun
  obtain ⟨outs, d₁, houts, hrun⟩ := Edit.runOn_bind_eq_ok.1 hrun
  have hall : Placed src True untouched d d₁ outs _ := Placed.mapM (fun n => Ends s o (Steps R n)) _
    (fun n hn d₂ d₃ out hd₂ hle hrun => by
      obtain ⟨k, rfl⟩ : ∃ k, n = k + 1 := ⟨n - 1, by have := mem_lengths.1 hn; omega⟩
      exact h.chain hpp k s o d₂ d₃ out hd₂ (hs.mono hle) (ho.mono hle) hrun)
    hd (Nat.le_refl _) houts
  have hsets : ∀ r, Ends s o (fun a b => ∃ n, (min ≤ n ∧ n ≤ max) ∧ Steps R n a b) r ↔
      ∃ S ∈ ((List.range (max + 1 - min)).map (· + min)).map fun n => Ends s o (Steps R n),
        S r := by
    intro r
    rw [ends_exists]
    simp only [List.mem_map (l := (List.range (max + 1 - min)).map (· + min)), mem_lengths,
      exists_exists_and_eq_and]
  have hseveral : ∀ {outs : List OperatorId}, Placed src True untouched d d₁ outs _ →
      (do pp.distinct (← PathPlanner.combine .union outs)).runOn d₁ = (.ok out, d') →
        Placed src True untouched d d' [out] _ := fun hall hrun => by
    obtain ⟨union, d₂, hunion, hrun⟩ := Edit.runOn_bind_eq_ok.1 hrun
    exact (hall.union hunion hsets).distinct hrun
  rcases outs with _ | ⟨first, _ | ⟨second, rest⟩⟩
  · exact hseveral hall hrun
  · exact hall.unionOf hrun hsets
  · exact hseveral hall hrun

theorem DrawsPairs.bounded (hpp : pp.ForStore graph) (h : DrawsPairs src graph path R)
    (hR : OnNodes (src.activeTriples graph) R) (min max : Nat) :
    DrawsPairs src graph (pp.bounded path min max)
      fun a b => ∃ n, min ≤ n ∧ n ≤ max ∧ Power (src.activeTriples graph) R n a b := by
  unfold PathPlanner.bounded
  by_cases hbounds : min > max
  · -- nothing is drawn
    intro s o d d' out hd hs ho hrun
    simp only [if_pos hbounds] at hrun
    cases hrun
  simp only [if_neg hbounds]
  rcases Nat.eq_zero_or_pos max with rfl | hmax
  · obtain rfl : min = 0 := by omega
    refine (drawsPairs_zeroLength hpp).congr rfl ?_
    funext a b
    rw [exists_power_from_zero hR]
    exact propext (or_iff_left fun ⟨n, hn, _⟩ => absurd hn.1 (by omega))
  rcases Nat.eq_zero_or_pos min with rfl | hmin
  · refine ((h.positiveRange hpp Nat.zero_lt_one max).withZero hpp).congr ?_ ?_
    · simp [Nat.ne_of_gt hmax]
    · funext a b
      exact propext (exists_power_from_zero hR max)
  · refine (h.positiveRange hpp hmin max).congr ?_ ?_
    · simp [Nat.ne_of_gt hmax, Nat.ne_of_gt hmin]
    · funext a b
      exact propext (exists_power_of_pos hR hmin max)

end QuadAlgebra
