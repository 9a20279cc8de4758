import Mathlib.Data.List.Basic
import QuadAlgebra.Proofs.Ordered.Laws
import QuadAlgebra.Semantics.Plan

/-!
# Kinds of rows

Solutions, quads, facts and actions are the kinds of rows. Each operator emits rows of one kind and
accepts rows of some kinds. An operator that reads only rows that it accepts emits rows of its kind,
unless it stands for a remote call or a plan nested in it has failed
(`Operator.emit_ends_well`).
-/

namespace QuadAlgebra

/-- What operators emit: solutions, quads, facts, and the actions of updates. -/
inductive RowKind where
  | solution
  | quad
  | fact
  | action
deriving DecidableEq

/-- The kind of a row. -/
def Row.rowKind : Row → RowKind
  | .solution _ => .solution
  | .quad _ => .quad
  | .fact _ => .fact
  | .action _ => .action

/-! ## What operators emit and accept -/

/-- What the form of a result accepts. -/
def ResultForm.accepts : ResultForm → RowKind → Bool
  | .select _, k | .ask, k => k == .solution
  | .update, k => k == .action
  | .construct, k | .describe, k | .materialize _, k => k == .quad || k == .fact

/-- The condition of a filter has a plan for each of its existence patterns, and its plans have
a property. -/
structure Filter.Covered {γ : Type} (good : γ → Prop) (f : Filter γ) : Prop where
  lookup : ∀ k < f.condition.existencePatterns.length, (f.nested.lookup k).isSome = true
  nested : ∀ e ∈ f.nested, good e.2

namespace Operator

variable {γ δ : Type}

/-- The kind of the rows that an operator hands to its consumers; a result has none. -/
def emits? : Operator γ → Option RowKind
  | .result _ => none
  | .construct _ | .generate _ | .describe _ => some .quad
  | .constructAtom _ => some .fact
  | .insert | .delete | .command _ => some .action
  | _ => some .solution

/-- What an operator accepts on its operands. -/
def accepts : Operator γ → RowKind → Bool
  | .result form, k => form.accepts k
  | .matchTriple _, k | .insert, k | .delete, k => k == .quad
  | .matchAtom _, k => k == .fact
  | .root, _ | .command _, _ => true
  | _, k => k == .solution

/-- The kinds of the rows that an operator has. A result keeps what it accepts. -/
def yields (op : Operator γ) (k : RowKind) : Prop :=
  match op with
  | .result form => form.accepts k = true
  | op => op.emits? = some k

def Covered (good : γ → Prop) : Operator γ → Prop
  | .filter f => f.Covered good
  | _ => True

/-- An operator that emits rows of some kind emits no others. -/
theorem yields_of_emits? {op : Operator γ} {k : RowKind} (h : op.emits? = some k) (j : RowKind) :
    op.yields j ↔ j = k := by
  cases op <;> simp_all [yields, emits?, eq_comm]

@[simp] theorem emits?_withNested (op : Operator γ) (nested : List (Nat × δ)) :
    (op.withNested nested).emits? = op.emits? := by
  cases op <;> rfl

@[simp] theorem accepts_withNested (op : Operator γ) (nested : List (Nat × δ)) :
    (op.withNested nested).accepts = op.accepts := by
  cases op <;> rfl

@[simp] theorem yields_withNested (op : Operator γ) (nested : List (Nat × δ)) :
    (op.withNested nested).yields = op.yields := by
  cases op <;> rfl

/-- The plans that are nested in a covered filter may be known to have more. -/
theorem Covered.mono {good good' : γ → Prop} {op : Operator γ} (h : op.Covered good)
    (hgood : ∀ e ∈ op.nested, good e.2 → good' e.2) : op.Covered good' := by
  cases op with
  | filter f =>
      have h : f.Covered good := h
      exact ⟨h.lookup, fun e he => hgood e he (h.nested e he)⟩
  | _ => trivial

/-- All plans that are nested in a covered operator are good. -/
theorem Covered.of_mem {good : γ → Prop} {op : Operator γ} (h : op.Covered good) {e : Nat × γ}
    (he : e ∈ op.nested) : good e.2 := by
  cases op with
  | filter f =>
      have h : f.Covered good := h
      exact h.nested e he
  | _ => simp [Operator.nested] at he

theorem lookup_map_snd (f : γ → δ) (l : List (Nat × γ)) (k : Nat) :
    (l.map fun e => (e.1, f e.2)).lookup k = (l.lookup k).map f := by
  induction l with
  | nil => rfl
  | cons e rest ih =>
      obtain ⟨j, a⟩ := e
      rw [List.map_cons, List.lookup_cons, List.lookup_cons, ih]
      cases k == j <;> rfl

/-- What is nested may be changed if the changes are good. -/
theorem Covered.withNested {good : δ → Prop} {op : Operator γ} {f : γ → δ}
    (h : op.Covered fun p => good (f p)) :
    (op.withNested (op.nested.map fun e => (e.1, f e.2))).Covered good := by
  cases op with
  | filter c =>
      have h : c.Covered fun p => good (f p) := h
      refine ⟨fun k hk => ?_, fun e he => ?_⟩
      · simp only [Operator.nested, lookup_map_snd, Option.isSome_map]
        exact h.lookup k hk
      · obtain ⟨e', he', rfl⟩ := List.mem_map.1 he
        exact h.nested e' he'
  | _ => trivial

/-! ## Operators told by their kinds -/

section Told

variable {op : Operator γ}

theorem eq_root_of_kind (h : op.kind = .root) : op = .root := by
  cases op with
  | command c => cases c <;> cases h
  | root => rfl
  | _ => cases h

theorem eq_result_of_kind (h : op.kind = .result) : ∃ form, op = .result form := by
  cases op with
  | command c => cases c <;> cases h
  | result form => exact ⟨form, rfl⟩
  | _ => cases h

theorem eq_join_of_kind (h : op.kind = .join) : op = .join := by
  cases op with
  | command c => cases c <;> cases h
  | join => rfl
  | _ => cases h

theorem eq_optional_of_kind (h : op.kind = .optional) : op = .optional := by
  cases op with
  | command c => cases c <;> cases h
  | optional => rfl
  | _ => cases h

theorem eq_minus_of_kind (h : op.kind = .minus) : op = .minus := by
  cases op with
  | command c => cases c <;> cases h
  | minus => rfl
  | _ => cases h

theorem eq_union_of_kind (h : op.kind = .union) : op = .union := by
  cases op with
  | command c => cases c <;> cases h
  | union => rfl
  | _ => cases h

end Told

end Operator

/-! ## Reading rows of one kind -/

theorem lookup_mem {α : Type} {l : List (Nat × α)} {k : Nat} {a : α} (h : l.lookup k = some a) :
    (k, a) ∈ l := by
  induction l with
  | nil => cases h
  | cons e rest ih =>
      obtain ⟨j, b⟩ := e
      rw [List.lookup_cons] at h
      cases hj : k == j with
      | true =>
          rw [hj] at h
          obtain rfl := Option.some.inj h
          rw [beq_iff_eq.1 hj]
          exact List.mem_cons_self
      | false =>
          rw [hj] at h
          exact List.mem_cons_of_mem _ (ih h)

/-- A row of solution kind holds a solution. -/
theorem Row.exists_solution {row : Row} (h : row.rowKind = .solution) :
    ∃ s, row.solution? = some s := by
  cases row <;> simp_all [Row.rowKind, Row.solution?]

/-- A row of quad kind holds a quad. -/
theorem Row.exists_quad {row : Row} (h : row.rowKind = .quad) : ∃ q, row.quad? = some q := by
  cases row <;> simp_all [Row.rowKind, Row.quad?]

theorem Row.exists_fact {row : Row} (h : row.rowKind = .fact) : ∃ f, row.fact? = some f := by
  cases row <;> simp_all [Row.rowKind, Row.fact?]

theorem Row.exists_action {row : Row} (h : row.rowKind = .action) :
    ∃ a, row.action? = some a := by
  cases row <;> simp_all [Row.rowKind, Row.action?]

/-- Rows of the expected kind can be read. -/
theorem expectRows_ok {α : Type} (id : OperatorId) (shape : RowShape) (read : Row → Option α)
    {rows : List Row} (h : ∀ row ∈ rows, ∃ a, read row = some a) :
    ∃ l, expectRows id shape read rows = .ok l := by
  induction rows with
  | nil => exact ⟨[], rfl⟩
  | cons row rest ih =>
      obtain ⟨a, ha⟩ := h row List.mem_cons_self
      obtain ⟨l, hl⟩ := ih fun r hr => h r (List.mem_cons_of_mem _ hr)
      unfold expectRows at hl ⊢
      refine ⟨a :: l, ?_⟩
      rw [List.mapM_cons, hl, ha]
      rfl

/-- Solutions can be read. -/
theorem expectSolutions_ok (id : OperatorId) {rows : List Row}
    (h : ∀ row ∈ rows, row.rowKind = .solution) : ∃ l, expectSolutions id rows = .ok l :=
  expectRows_ok id .solutions Row.solution? fun row hrow => Row.exists_solution (h row hrow)

/-! ## Emitting rows of one kind -/

/-- All rows are of kinds that satisfy a condition. -/
def AllRows (ok : RowKind → Prop) (rows : List Row) : Prop := ∀ row ∈ rows, ok row.rowKind

/-- What is wrapped alike is of one kind. -/
theorem AllRows.of_map {β : Type} {l : List β} {wrap : β → Row} {k : RowKind}
    (hwrap : ∀ b, (wrap b).rowKind = k) : AllRows (· = k) (l.map wrap) := by
  intro row hrow
  obtain ⟨b, -, rfl⟩ := List.mem_map.1 hrow
  exact hwrap b

/-- The rows on all operands are of kinds that satisfy a condition. -/
def Operands.Each (operands : Operands) (ok : RowKind → Prop) : Prop :=
  ∀ o ∈ operands, AllRows ok o.2

namespace Operands

variable {operands : Operands} {ok : RowKind → Prop}

/-- What holds of the rows on each operand holds of all rows. -/
theorem Each.rows (h : operands.Each ok) : AllRows ok operands.rows := by
  intro row hrow
  obtain ⟨o, ho, hrow⟩ := List.mem_flatMap.1 hrow
  exact h o ho row hrow

theorem Each.on (h : operands.Each ok) (k : Nat) : AllRows ok (operands.on k) := by
  intro row hrow
  unfold Operands.on at hrow
  cases hl : operands.lookup k with
  | none => simp [hl] at hrow
  | some l =>
      rw [hl] at hrow
      exact h (k, l) (lookup_mem hl) row hrow

theorem Each.except (h : operands.Each ok) (k : Nat) : AllRows ok (operands.except k) := by
  intro row hrow
  obtain ⟨o, ho, hrow⟩ := List.mem_flatMap.1 hrow
  exact h o (List.mem_filter.1 ho).1 row hrow

end Operands

/-- What is returned satisfies a condition, and no error occurs but those that are allowed. -/
def EndsWell {α : Type} (outcome : Except Error α) (post : α → Prop) (allowed : Error → Prop) :
    Prop :=
  match outcome with
  | .ok a => post a
  | .error e => allowed e

namespace EndsWell

variable {α β : Type} {post : α → Prop} {allowed : Error → Prop} {outcome : Except Error α}

/-- Less may be said of what is computed. -/
theorem mono {post' : α → Prop} (h : EndsWell outcome post allowed)
    (hpost : ∀ a, post a → post' a) : EndsWell outcome post' allowed := by
  cases outcome with
  | error e => exact h
  | ok a => exact hpost a h

/-- The next step may rely on what the first one has computed. -/
theorem bind {post' : β → Prop} {f : α → Except Error β} (h : EndsWell outcome post allowed)
    (hf : ∀ a, post a → EndsWell (f a) post' allowed) : EndsWell (outcome >>= f) post' allowed := by
  cases outcome with
  | error e => exact h
  | ok a => exact hf a h

theorem bind_pure {f : α → β} (h : EndsWell outcome (fun _ => True) allowed) :
    EndsWell (outcome >>= fun a => pure (f a)) (fun _ => True) allowed :=
  h.bind fun _ _ => trivial

/-- Reading succeeds, and what is made of what is read satisfies the condition. -/
theorem of_read {read : Except Error β} {f : β → α} (hread : ∃ b, read = .ok b)
    (hf : ∀ b, post (f b)) : EndsWell (read.map f) post allowed := by
  obtain ⟨b, rfl⟩ := hread
  exact hf b

/-- An invariant of all steps holds in the end, unless one of them fails in an allowed way. -/
theorem foldlM {inv : α → Prop} {l : List β} {f : α → β → Except Error α} {a : α} (ha : inv a)
    (h : ∀ a, inv a → ∀ b ∈ l, EndsWell (f a b) inv allowed) :
    EndsWell (l.foldlM f a) inv allowed := by
  induction l generalizing a with
  | nil => exact ha
  | cons b rest ih =>
      rw [List.foldlM_cons]
      exact bind (h a ha b List.mem_cons_self) fun a' ha' =>
        ih ha' fun a'' ha'' b' hb' => h a'' ha'' b' (List.mem_cons_of_mem _ hb')

end EndsWell

/-- A lookup of nested solutions fails only if a nested plan has failed. -/
theorem nestedSolutions_error {nested : List (Nat × Except Error (List Solution))} {e : Error}
    {allowed : Error → Prop} {patterns : List Group} {k : Nat}
    (hlookup : ∀ j, k ≤ j → j < k + patterns.length → (nested.lookup j).isSome = true)
    (hnested : ∀ o ∈ nested, ∀ e, o.2 = .error e → allowed e)
    (h : nestedSolutions nested k patterns = .error e) : allowed e := by
  induction patterns generalizing k with
  | nil => cases h
  | cons p rest ih =>
      obtain ⟨outcome, ho⟩ := Option.isSome_iff_exists.1
        (hlookup k (Nat.le_refl k) (by simp))
      rw [nestedSolutions, ho] at h
      cases outcome with
      | error e' =>
          obtain rfl : e' = e := by simpa [bind, Except.bind] using h
          exact hnested _ (lookup_mem ho) e' rfl
      | ok rows =>
          cases hrest : nestedSolutions nested (k + 1) rest with
          | ok l => simp [hrest, bind, Except.bind, pure, Except.pure] at h
          | error e' =>
              obtain rfl : e' = e := by simpa [hrest, bind, Except.bind] using h
              refine ih (fun j hj hj' => hlookup j (Nat.le_of_succ_le hj) ?_) hrest
              rw [List.length_cons]
              omega

namespace Operator

variable {src : Source} {id : OperatorId} {op : Operator (Except Error (List Solution))}
  {operands : Operands} {allowed : Error → Prop}

/-- The operands of a join can be read. -/
theorem mapM_expectSolutions_ok (id : OperatorId) (h : operands.Each (· = .solution)) :
    ∃ l, operands.mapM (fun o => expectSolutions id o.2) = .ok l := by
  induction operands with
  | nil => exact ⟨[], rfl⟩
  | cons o rest ih =>
      obtain ⟨l, hl⟩ := ih fun p hp => h p (List.mem_cons_of_mem _ hp)
      obtain ⟨rows, hrows⟩ := expectSolutions_ok id (h o List.mem_cons_self)
      refine ⟨rows :: l, ?_⟩
      rw [List.mapM_cons, hrows, hl]
      rfl

/-- An operator that reads what it accepts emits rows of its kind, or fails because it stands for a
remote call or because a nested plan has failed. -/
theorem emit_ends_well (hread : operands.Each fun k => op.accepts k = true)
    (hservice : ∀ endpoint pattern silent, op = .service endpoint pattern silent →
      allowed (.unsupported (.remoteCall endpoint)))
    (hcovered : op.Covered fun outcome => ∀ e, outcome = .error e → allowed e) :
    EndsWell (op.emit src id operands) (AllRows op.yields) allowed := by
  have hkind {k : RowKind} (hk : op.emits? = some k)
      (h : EndsWell (op.emit src id operands) (AllRows (· = k)) allowed) :
      EndsWell (op.emit src id operands) (AllRows op.yields) allowed :=
    h.mono fun rows hrows row hrow => (yields_of_emits? hk _).2 (hrows row hrow)
  have heach {k : RowKind} (hop : op.accepts = (· == k)) : operands.Each (· = k) :=
    fun o ho row hrow => beq_iff_eq.1 ((congrFun hop _).symm.trans (hread o ho row hrow))
  -- operators on solutions read all operands together, or one apart from the others
  have hall (hop : op.accepts = (· == .solution)) : ∃ l, expectSolutions id operands.rows = .ok l :=
    expectSolutions_ok id (heach hop).rows
  have hon (hop : op.accepts = (· == .solution)) :
      ∃ l, expectSolutions id (operands.on 0) = .ok l :=
    expectSolutions_ok id ((heach hop).on 0)
  have hexcept (hop : op.accepts = (· == .solution)) :
      ∃ l, expectSolutions id (operands.except 0) = .ok l :=
    expectSolutions_ok id ((heach hop).except 0)
  have hpass (hop : op.accepts = (· == .solution)) {rows : List Row}
      (hsub : ∀ row ∈ rows, row ∈ operands.rows) : AllRows (· = .solution) rows :=
    fun row hrow => (heach hop).rows row (hsub row hrow)
  have hquads (hop : op.accepts = (· == .quad)) (shape : RowShape) :
      ∃ l, expectRows id shape Row.quad? operands.rows = .ok l :=
    expectRows_ok id shape Row.quad? fun row hrow => Row.exists_quad ((heach hop).rows row hrow)
  cases op with
  | root => exact hkind rfl fun row hrow => by rw [List.mem_singleton.1 hrow]; rfl
  | result form => exact hread.rows
  | union | window _ => exact hkind rfl (hpass rfl fun _ h => h)
  | limit n => exact hkind rfl (hpass rfl fun _ h => List.mem_of_mem_take h)
  | offset n => exact hkind rfl (hpass rfl fun _ h => List.mem_of_mem_drop h)
  | distinct | indexDistinct => exact hkind rfl (hpass rfl fun _ h => mem_distinctOf.1 h)
  | scan _ | probe _ | ruleFilter _ | projection _ | bind _ _ | replaceVar _ | sort _
  | group _ _ =>
      exact hkind rfl (.of_read (hall rfl) fun _ => .of_map fun _ => rfl)
  | construct _ | generate _ | describe _ =>
      exact hkind rfl (.of_read (hall rfl) fun _ => .of_map fun _ => rfl)
  | constructAtom _ => exact hkind rfl (.of_read (hall rfl) fun _ => .of_map fun _ => rfl)
  | insert | delete =>
      exact hkind rfl (.of_read (hquads rfl .quads) fun _ => .of_map fun _ => rfl)
  | join =>
      obtain ⟨lists, hlists⟩ := mapM_expectSolutions_ok id (heach rfl)
      refine hkind rfl ?_
      rw [emit, hlists]
      exact AllRows.of_map fun _ => rfl
  | optional | minus =>
      obtain ⟨left, hleft⟩ := hon rfl
      obtain ⟨right, hright⟩ := hexcept rfl
      refine hkind rfl ?_
      rw [emit, hleft, hright]
      exact AllRows.of_map fun _ => rfl
  | filter f =>
      have hcovered : f.Covered _ := hcovered
      obtain ⟨rows, hrows⟩ := hall rfl
      refine hkind rfl ?_
      rw [emit, hrows]
      cases hfound : nestedSolutions f.nested 0 f.condition.existencePatterns with
      | ok found => exact AllRows.of_map fun _ => rfl
      | error e =>
          exact nestedSolutions_error (fun j _ hj => hcovered.lookup j (by omega))
            hcovered.nested hfound
  | matchTriple p =>
      obtain ⟨quads, hfound⟩ := hquads rfl .derivedTriples
      refine hkind rfl ?_
      rw [emit, hfound]
      exact AllRows.of_map fun _ => rfl
  | matchAtom a =>
      obtain ⟨facts, hfound⟩ := expectRows_ok id .derivedFacts Row.fact? fun row hrow =>
        Row.exists_fact (((heach rfl).rows : AllRows (· = .fact) _) row hrow)
      refine hkind rfl ?_
      rw [emit, hfound]
      exact AllRows.of_map fun _ => rfl
  | command c =>
      refine hkind rfl fun row hrow => ?_
      split at hrow
      · cases hrow
      · rw [List.mem_singleton.1 hrow]; rfl
  | service endpoint pattern silent => exact hservice endpoint pattern silent rfl

end Operator

end QuadAlgebra
