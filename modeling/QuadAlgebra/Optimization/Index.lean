import QuadAlgebra.Plan.Graph

/-!
# Operators by kind

An index lists the operators of a graph under their kinds, so that a rule finds the places where it
may start without a walk over the graph. It agrees with a graph when it equals the index that is
made from the graph.
-/

namespace QuadAlgebra

attribute [local instance] lexOrd

/-! ## Entries -/

theorem Kind.ofName?_name (k : Kind) : Kind.ofName? k.name = some k := by cases k <;> decide

/-- An operator listed under a kind. -/
structure KindEntry where
  kind : Kind
  id : OperatorId
deriving DecidableEq

namespace KindEntry

/-- The name of the kind first, then the number of the operator. -/
def key (e : KindEntry) : String × OperatorId := (e.kind.name, e.id)

theorem key_injective (a b : KindEntry) (h : a.key = b.key) : a = b := by
  obtain ⟨k, i⟩ := a
  obtain ⟨l, j⟩ := b
  obtain ⟨hname, hid⟩ := Prod.mk.inj h
  have hkind : some k = some l := by
    rw [← Kind.ofName?_name k, ← Kind.ofName?_name l]
    exact congrArg Kind.ofName? hname
  cases hkind
  cases hid
  rfl

instance : Ord KindEntry := ⟨compareKeys key⟩

instance : Std.TransOrd KindEntry := compareKeys_trans key

instance : Std.LawfulEqOrd KindEntry := compareKeys_lawful key key_injective

end KindEntry

/-! ## Indexes -/

/-- Operators listed by kind. -/
structure KindIndex where
  entries : OrdSet KindEntry
deriving DecidableEq

namespace KindIndex

def empty : KindIndex := ⟨∅⟩

def insert (x : KindIndex) (kind : Kind) (id : OperatorId) : KindIndex :=
  ⟨x.entries.insert ⟨kind, id⟩⟩

def remove (x : KindIndex) (kind : Kind) (id : OperatorId) : KindIndex :=
  ⟨x.entries.erase ⟨kind, id⟩⟩

/-- The operators listed under a kind, in order of their numbers. -/
def candidates (x : KindIndex) (kind : Kind) : List OperatorId :=
  (x.entries.toList.filter (·.kind == kind)).map KindEntry.id

def size (x : KindIndex) : Nat := x.entries.size

def isEmpty (x : KindIndex) : Bool := x.entries.isEmpty

/-- The index of all operators of a graph. -/
def ofGraph {γ : Type} (g : Graph γ) : KindIndex :=
  ⟨OrdSet.ofList (g.ids.filterMap fun id => (g.kind? id).map fun kind => ⟨kind, id⟩)⟩

/-- Stops unless the index agrees with a graph. -/
def verify {γ : Type} (x : KindIndex) (g : Graph γ) : Except Error Unit :=
  let live := ofGraph g
  if x = live then .ok ()
  else
    let stale := Kind.all.find? fun kind =>
      !(live.candidates kind).isEmpty && x.candidates kind != live.candidates kind
    match stale with
    | some kind =>
      .error (.internal (.staleIndex kind (OrdSet.ofList (x.candidates kind))
        (OrdSet.ofList (live.candidates kind))))
    | none => .error (.internal .indexedNotLive)

end KindIndex

end QuadAlgebra
