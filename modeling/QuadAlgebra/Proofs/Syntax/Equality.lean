import QuadAlgebra.Syntax.Equality

/-!
# Equal syntax trees are the same

The comparison of syntax trees that lets equal aggregates share a variable says yes only to trees
that are one and the same (`Expression.eq_of_same`, `Aggregate.eq_of_same`).
-/

namespace QuadAlgebra

mutual

theorem Expression.eq_of_same : ∀ e e' : Expression, e.same e' = true → e = e'
  | .variable v, e', h => by
      cases e' <;> simp_all [Expression.same]
  | .constant t, e', h => by
      cases e' <;> simp_all [Expression.same]
  | .bound v, e', h => by
      cases e' <;> simp_all [Expression.same]
  | .binary l s r, e', h => by
      cases e' <;> simp only [Expression.same, Bool.and_eq_true, Bool.false_eq_true] at h
      next l' s' r' =>
      obtain ⟨⟨hs, hl⟩, hr⟩ := h
      rw [beq_iff_eq.1 hs, l.eq_of_same l' hl, r.eq_of_same r' hr]
  | .unary s e, e', h => by
      cases e' <;> simp only [Expression.same, Bool.and_eq_true, Bool.false_eq_true] at h
      next s' e' => rw [beq_iff_eq.1 h.1, e.eq_of_same e' h.2]
  | .call n args, e', h => by
      cases e' <;> simp only [Expression.same, Bool.and_eq_true, Bool.false_eq_true] at h
      next n' args' => rw [beq_iff_eq.1 h.1, eq_of_sameExpressions args args' h.2]
  | .aggregate a, e', h => by
      cases e' <;> simp only [Expression.same, Bool.false_eq_true] at h
      next a' => rw [a.eq_of_same a' h]
  | .existence b p, e', h => by
      cases e' <;> simp only [Expression.same, Bool.and_eq_true, Bool.false_eq_true] at h
      next b' p' => rw [beq_iff_eq.1 h.1, p.eq_of_same p' h.2]

theorem eq_of_sameExpressions :
    ∀ es es' : List Expression, sameExpressions es es' = true → es = es'
  | [], [], _ => rfl
  | e :: rest, e' :: rest', h => by
      simp only [sameExpressions, Bool.and_eq_true] at h
      rw [e.eq_of_same e' h.1, eq_of_sameExpressions rest rest' h.2]
  | [], _ :: _, h | _ :: _, [], h => by simp [sameExpressions] at h

theorem Aggregate.eq_of_same : ∀ a a' : Aggregate, a.same a' = true → a = a'
  | ⟨f, d, some e⟩, ⟨f', d', some e'⟩, h => by
      simp only [Aggregate.same, Bool.and_eq_true] at h
      rw [beq_iff_eq.1 h.1.1, beq_iff_eq.1 h.1.2, e.eq_of_same e' h.2]
  | ⟨f, d, none⟩, ⟨f', d', none⟩, h => by
      simp only [Aggregate.same, Bool.and_eq_true] at h
      rw [beq_iff_eq.1 h.1, beq_iff_eq.1 h.2]
  | ⟨_, _, some _⟩, ⟨_, _, none⟩, h | ⟨_, _, none⟩, ⟨_, _, some _⟩, h => by
      simp [Aggregate.same] at h

theorem Group.eq_of_same : ∀ g g' : Group, g.same g' = true → g = g'
  | ⟨elements⟩, ⟨elements'⟩, h => by
      simp only [Group.same] at h
      rw [eq_of_sameElements elements elements' h]

theorem eq_of_sameElements : ∀ es es' : List Element, sameElements es es' = true → es = es'
  | [], [], _ => rfl
  | e :: rest, e' :: rest', h => by
      simp only [sameElements, Bool.and_eq_true] at h
      rw [e.eq_of_same e' h.1, eq_of_sameElements rest rest' h.2]
  | [], _ :: _, h | _ :: _, [], h => by simp [sameElements] at h

theorem Element.eq_of_same : ∀ e e' : Element, e.same e' = true → e = e'
  | .triple p, e', h => by
      cases e' <;> simp_all [Element.same]
  | .path p, e', h => by
      cases e' <;> simp_all [Element.same]
  | .atom a, e', h => by
      cases e' <;> simp_all [Element.same]
  | .group g, e', h => by
      cases e' <;> simp only [Element.same, Bool.false_eq_true] at h
      next g' => rw [g.eq_of_same g' h]
  | .union gs, e', h => by
      cases e' <;> simp only [Element.same, Bool.false_eq_true] at h
      next gs' => rw [eq_of_sameGroups gs gs' h]
  | .optional g, e', h => by
      cases e' <;> simp only [Element.same, Bool.false_eq_true] at h
      next g' => rw [g.eq_of_same g' h]
  | .minus g, e', h => by
      cases e' <;> simp only [Element.same, Bool.false_eq_true] at h
      next g' => rw [g.eq_of_same g' h]
  | .graph n g, e', h => by
      cases e' <;> simp only [Element.same, Bool.and_eq_true, Bool.false_eq_true] at h
      next n' g' => rw [beq_iff_eq.1 h.1, g.eq_of_same g' h.2]
  | .filter e, e', h => by
      cases e' <;> simp only [Element.same, Bool.false_eq_true] at h
      next e' => rw [e.eq_of_same e' h]
  | .bind e v, e', h => by
      cases e' <;> simp only [Element.same, Bool.and_eq_true, Bool.false_eq_true] at h
      next e' v' => rw [beq_iff_eq.1 h.1, e.eq_of_same e' h.2]
  | .subSelect q, e', h => by
      cases e' <;> simp only [Element.same, Bool.false_eq_true] at h
      next q' => rw [q.eq_of_same q' h]
  | .service i g b, e', h => by
      cases e' <;> simp only [Element.same, Bool.and_eq_true, Bool.false_eq_true] at h
      next i' g' b' => rw [beq_iff_eq.1 h.1.1, beq_iff_eq.1 h.1.2, g.eq_of_same g' h.2]
  | .window w g, e', h => by
      cases e' <;> simp only [Element.same, Bool.and_eq_true, Bool.false_eq_true] at h
      next w' g' => rw [beq_iff_eq.1 h.1, g.eq_of_same g' h.2]

theorem eq_of_sameGroups : ∀ gs gs' : List Group, sameGroups gs gs' = true → gs = gs'
  | [], [], _ => rfl
  | g :: rest, g' :: rest', h => by
      simp only [sameGroups, Bool.and_eq_true] at h
      rw [g.eq_of_same g' h.1, eq_of_sameGroups rest rest' h.2]
  | [], _ :: _, h | _ :: _, [], h => by simp [sameGroups] at h

theorem Query.eq_of_same : ∀ q q' : Query, q.same q' = true → q = q'
  | ⟨f, d, some p, m⟩, ⟨f', d', some p', m'⟩, h => by
      simp only [Query.same, Bool.and_eq_true] at h
      obtain ⟨⟨⟨hf, hd⟩, hp⟩, hm⟩ := h
      rw [f.eq_of_same f' hf, beq_iff_eq.1 hd, p.eq_of_same p' hp, m.eq_of_same m' hm]
  | ⟨f, d, none, m⟩, ⟨f', d', none, m'⟩, h => by
      simp only [Query.same, Bool.and_eq_true] at h
      obtain ⟨⟨hf, hd⟩, hm⟩ := h
      rw [f.eq_of_same f' hf, beq_iff_eq.1 hd, m.eq_of_same m' hm]
  | ⟨_, _, some _, _⟩, ⟨_, _, none, _⟩, h | ⟨_, _, none, _⟩, ⟨_, _, some _, _⟩, h => by
      simp [Query.same] at h

theorem QueryForm.eq_of_same : ∀ f f' : QueryForm, f.same f' = true → f = f'
  | .select d s, f', h => by
      cases f' <;> simp only [QueryForm.same, Bool.and_eq_true, Bool.false_eq_true] at h
      next d' s' => rw [beq_iff_eq.1 h.1, s.eq_of_same s' h.2]
  | .construct t, f', h => by
      cases f' <;> simp_all [QueryForm.same]
  | .ask, f', h => by
      cases f' <;> simp_all [QueryForm.same]
  | .describe r, f', h => by
      cases f' <;> simp_all [QueryForm.same]

theorem Selection.eq_of_same : ∀ s s' : Selection, s.same s' = true → s = s'
  | .wildcard, .wildcard, _ => rfl
  | .explicit items, .explicit items', h => by
      simp only [Selection.same] at h
      rw [eq_of_sameSelectItems items items' h]
  | .wildcard, .explicit _, h | .explicit _, .wildcard, h => by simp [Selection.same] at h

theorem eq_of_sameSelectItems :
    ∀ items items' : List SelectItem, sameSelectItems items items' = true → items = items'
  | [], [], _ => rfl
  | .variable v :: rest, .variable w :: rest', h => by
      simp only [sameSelectItems, Bool.and_eq_true] at h
      rw [beq_iff_eq.1 h.1, eq_of_sameSelectItems rest rest' h.2]
  | .computed e v :: rest, .computed e' w :: rest', h => by
      simp only [sameSelectItems, Bool.and_eq_true] at h
      rw [beq_iff_eq.1 h.1.1, e.eq_of_same e' h.1.2, eq_of_sameSelectItems rest rest' h.2]
  | [], _ :: _, h | _ :: _, [], h | .variable _ :: _, .computed _ _ :: _, h
  | .computed _ _ :: _, .variable _ :: _, h => by simp [sameSelectItems] at h

theorem Modifiers.eq_of_same : ∀ m m' : Modifiers, m.same m' = true → m = m'
  | ⟨g, h, o, l, s⟩, ⟨g', h', o', l', s'⟩, hsame => by
      simp only [Modifiers.same, Bool.and_eq_true] at hsame
      obtain ⟨⟨⟨⟨hg, hh⟩, ho⟩, hl⟩, hs⟩ := hsame
      rw [eq_of_sameGroupKeys g g' hg, eq_of_sameExpressions h h' hh, eq_of_sameSortKeys o o' ho,
        beq_iff_eq.1 hl, beq_iff_eq.1 hs]

theorem eq_of_sameGroupKeys :
    ∀ keys keys' : List GroupKey, sameGroupKeys keys keys' = true → keys = keys'
  | [], [], _ => rfl
  | .variable v :: rest, .variable w :: rest', h => by
      simp only [sameGroupKeys, Bool.and_eq_true] at h
      rw [beq_iff_eq.1 h.1, eq_of_sameGroupKeys rest rest' h.2]
  | .computed e v :: rest, .computed e' w :: rest', h => by
      simp only [sameGroupKeys, Bool.and_eq_true] at h
      rw [beq_iff_eq.1 h.1.1, e.eq_of_same e' h.1.2, eq_of_sameGroupKeys rest rest' h.2]
  | [], _ :: _, h | _ :: _, [], h | .variable _ :: _, .computed _ _ :: _, h
  | .computed _ _ :: _, .variable _ :: _, h => by simp [sameGroupKeys] at h

theorem eq_of_sameSortKeys :
    ∀ keys keys' : List SortKey, sameSortKeys keys keys' = true → keys = keys'
  | [], [], _ => rfl
  | ⟨e, d⟩ :: rest, ⟨e', d'⟩ :: rest', h => by
      simp only [sameSortKeys, Bool.and_eq_true] at h
      rw [beq_iff_eq.1 h.1.1, e.eq_of_same e' h.1.2, eq_of_sameSortKeys rest rest' h.2]
  | [], _ :: _, h | _ :: _, [], h => by simp [sameSortKeys] at h

end

end QuadAlgebra
