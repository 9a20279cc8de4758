import QuadAlgebra.Syntax.Basic

/-!
# Equality of syntax trees

Two trees are equal when they have the same shape and the same leaves. Equal aggregates of one
query share a result, so this has to be computed.
-/

namespace QuadAlgebra

mutual

def Expression.same : Expression → Expression → Bool
  | .variable v, .variable w => v == w
  | .constant t, .constant u => t == u
  | .binary l s r, .binary l' s' r' => s == s' && l.same l' && r.same r'
  | .unary s e, .unary s' e' => s == s' && e.same e'
  | .call n args, .call n' args' => n == n' && sameExpressions args args'
  | .bound v, .bound w => v == w
  | .aggregate a, .aggregate b => a.same b
  | .existence b p, .existence b' p' => b == b' && p.same p'
  | _, _ => false

def sameExpressions : List Expression → List Expression → Bool
  | [], [] => true
  | e :: rest, e' :: rest' => e.same e' && sameExpressions rest rest'
  | _, _ => false

def Aggregate.same : Aggregate → Aggregate → Bool
  | ⟨f, d, some e⟩, ⟨f', d', some e'⟩ => f == f' && d == d' && e.same e'
  | ⟨f, d, none⟩, ⟨f', d', none⟩ => f == f' && d == d'
  | _, _ => false

def Group.same : Group → Group → Bool
  | ⟨elements⟩, ⟨elements'⟩ => sameElements elements elements'

def sameElements : List Element → List Element → Bool
  | [], [] => true
  | e :: rest, e' :: rest' => e.same e' && sameElements rest rest'
  | _, _ => false

def Element.same : Element → Element → Bool
  | .triple p, .triple p' => p == p'
  | .path p, .path p' => p == p'
  | .group g, .group g' => g.same g'
  | .union gs, .union gs' => sameGroups gs gs'
  | .optional g, .optional g' => g.same g'
  | .minus g, .minus g' => g.same g'
  | .graph n g, .graph n' g' => n == n' && g.same g'
  | .filter e, .filter e' => e.same e'
  | .bind e v, .bind e' v' => v == v' && e.same e'
  | .subSelect q, .subSelect q' => q.same q'
  | .service i g b, .service i' g' b' => i == i' && b == b' && g.same g'
  | .window w g, .window w' g' => w == w' && g.same g'
  | .atom a, .atom a' => a == a'
  | _, _ => false

def sameGroups : List Group → List Group → Bool
  | [], [] => true
  | g :: rest, g' :: rest' => g.same g' && sameGroups rest rest'
  | _, _ => false

def Query.same : Query → Query → Bool
  | ⟨f, d, some p, m⟩, ⟨f', d', some p', m'⟩ => f.same f' && d == d' && p.same p' && m.same m'
  | ⟨f, d, none, m⟩, ⟨f', d', none, m'⟩ => f.same f' && d == d' && m.same m'
  | _, _ => false

def QueryForm.same : QueryForm → QueryForm → Bool
  | .select d s, .select d' s' => d == d' && s.same s'
  | .construct t, .construct t' => t == t'
  | .ask, .ask => true
  | .describe r, .describe r' => r == r'
  | _, _ => false

def Selection.same : Selection → Selection → Bool
  | .wildcard, .wildcard => true
  | .explicit items, .explicit items' => sameSelectItems items items'
  | _, _ => false

def sameSelectItems : List SelectItem → List SelectItem → Bool
  | [], [] => true
  | .variable v :: rest, .variable w :: rest' => v == w && sameSelectItems rest rest'
  | .computed e v :: rest, .computed e' w :: rest' =>
    v == w && e.same e' && sameSelectItems rest rest'
  | _, _ => false

def Modifiers.same : Modifiers → Modifiers → Bool
  | ⟨g, h, o, l, s⟩, ⟨g', h', o', l', s'⟩ =>
    sameGroupKeys g g' && sameExpressions h h' && sameSortKeys o o' && l == l' && s == s'

def sameGroupKeys : List GroupKey → List GroupKey → Bool
  | [], [] => true
  | .variable v :: rest, .variable w :: rest' => v == w && sameGroupKeys rest rest'
  | .computed e v :: rest, .computed e' w :: rest' =>
    v == w && e.same e' && sameGroupKeys rest rest'
  | _, _ => false

def sameSortKeys : List SortKey → List SortKey → Bool
  | [], [] => true
  | ⟨e, d⟩ :: rest, ⟨e', d'⟩ :: rest' => d == d' && e.same e' && sameSortKeys rest rest'
  | _, _ => false

end

instance : BEq Expression := ⟨Expression.same⟩
instance : BEq Aggregate := ⟨Aggregate.same⟩
instance : BEq Group := ⟨Group.same⟩

end QuadAlgebra
