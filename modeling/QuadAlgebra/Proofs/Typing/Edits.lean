import Mathlib.Order.Defs.Unbundled
import QuadAlgebra.Proofs.Planning.Growth

/-!
# What edits end with

`edit.Ends s post` says that whatever the edit returns from the state `s`, and the state that it
leaves, satisfy `post`; nothing is said of an edit that fails. It distributes over the parts of an
edit. Over the repetitions of a loop a preorder on states is carried along that every repetition
respects.
-/

namespace QuadAlgebra

namespace Edit

variable {σ τ α β : Type}

/-- Where the edit succeeds on the state, its result and the new state are as stated. -/
def Ends (edit : Edit σ α) (s : σ) (post : α → σ → Prop) : Prop :=
  ∀ a s', edit.runOn s = (.ok a, s') → post a s'

variable {edit : Edit σ α} {s : σ} {post post' : α → σ → Prop}

/-- What is stated may be weakened. -/
theorem Ends.mono (h : edit.Ends s post) (hpost : ∀ a s', post a s' → post' a s') :
    edit.Ends s post' :=
  fun a s' hrun => hpost a s' (h a s' hrun)

/-- Two statements about one edit hold together. -/
theorem Ends.and (h : edit.Ends s post) (h' : edit.Ends s post') :
    edit.Ends s fun a s' => post a s' ∧ post' a s' :=
  fun a s' hrun => ⟨h a s' hrun, h' a s' hrun⟩

/-- A pure edit leaves the state. -/
theorem ends_pure {a : α} {post : α → σ → Prop} : (pure a : Edit σ α).Ends s post ↔ post a s := by
  constructor
  · exact fun h => h a s rfl
  · rintro h b t hrun
    obtain ⟨hb, rfl⟩ := Prod.mk.inj hrun
    obtain rfl := Except.ok.inj hb
    exact h

/-- Nothing has to hold after a failure. -/
theorem ends_throw {e : Error} : (throw e : Edit σ α).Ends s post := by
  intro a s' hrun
  cases (Prod.mk.inj hrun).1

/-- Nothing has to hold after an internal fault. -/
theorem ends_fault {cause : Fault} : (fault cause : Edit σ α).Ends s post := ends_throw

/-- An edit after another starts from what the first has left. -/
theorem ends_bind {f : α → Edit σ β} {post : β → σ → Prop} :
    (edit >>= f).Ends s post ↔ edit.Ends s fun a s' => (f a).Ends s' post := by
  constructor
  · exact fun h a s' hrun b s'' hrun' => h b s'' (runOn_bind_eq_ok.2 ⟨a, s', hrun, hrun'⟩)
  · intro h b s'' hrun
    obtain ⟨a, s', hrun, hrun'⟩ := runOn_bind_eq_ok.1 hrun
    exact h a s' hrun b s'' hrun'

/-- The same in one direction, by a statement about the state between them. -/
theorem Ends.bind {mid : α → σ → Prop} {f : α → Edit σ β} {post : β → σ → Prop}
    (h : edit.Ends s mid) (hnext : ∀ a s', mid a s' → (f a).Ends s' post) :
    (edit >>= f).Ends s post := ends_bind.2 (h.mono hnext)

/-- Reading the state leaves it. -/
theorem ends_get {post : σ → σ → Prop} : (get : Edit σ σ).Ends s post ↔ post s s := by
  constructor
  · exact fun h => h s s rfl
  · rintro h b t hrun
    obtain ⟨hb, rfl⟩ := Prod.mk.inj hrun
    obtain rfl := Except.ok.inj hb
    exact h

/-- Writing the state leaves nothing else. -/
theorem ends_set {t : σ} {post : PUnit → σ → Prop} :
    (set t : Edit σ PUnit).Ends s post ↔ post ⟨⟩ t := by
  constructor
  · exact fun h => h _ t rfl
  · rintro h b s' hrun
    obtain ⟨-, rfl⟩ := Prod.mk.inj hrun
    exact h

/-- Modifying the state applies the function to it. -/
theorem ends_modify {f : σ → σ} {post : PUnit → σ → Prop} :
    (modify f : Edit σ PUnit).Ends s post ↔ post ⟨⟩ (f s) := by
  constructor
  · exact fun h => h _ _ rfl
  · rintro h b s' hrun
    obtain ⟨-, rfl⟩ := Prod.mk.inj hrun
    exact h

/-- An edit of a part of the state leaves the rest. -/
theorem ends_within {get : τ → σ} {set : σ → τ → τ} {t : τ} {post : α → τ → Prop} :
    (within get set edit).Ends t post ↔ edit.Ends (get t) fun a s' => post a (set s' t) := by
  constructor
  · intro h a s' hrun
    refine h a (set s' t) ?_
    rw [runOn_within, hrun]
  · intro h a t' hrun
    rw [runOn_within] at hrun
    obtain ⟨ha, rfl⟩ := Prod.mk.inj hrun
    exact h a _ (Prod.ext ha rfl)

/-- An edit in two parts, one of which may be left out. -/
theorem ends_ite {c : Prop} [Decidable c] {first second : Edit σ α} (h : c → first.Ends s post)
    (h' : ¬ c → second.Ends s post) : (if c then first else second).Ends s post := by
  split
  · next hc => exact h hc
  · next hc => exact h' hc

/-! ## Loops -/

section Loops

variable (le : σ → σ → Prop) [IsPreorder σ le]

/-- What each edit of a list keeps, all of them keep. -/
theorem ends_forM {l : List α} {f : α → Edit σ PUnit}
    (h : ∀ a ∈ l, ∀ s', le s s' → (f a).Ends s' fun _ s'' => le s' s'') :
    (l.forM f).Ends s fun _ s' => le s s' := by
  induction l generalizing s with
  | nil => exact ends_pure.2 (refl s)
  | cons a rest ih =>
      rw [List.forM_eq_forM, List.forM_cons]
      refine (h a List.mem_cons_self s (refl s)).bind fun _ s₁ h₁ => ?_
      refine (ih fun b hb s' hs' =>
        h b (List.mem_cons_of_mem _ hb) s' (IsTrans.trans _ _ _ h₁ hs')).mono ?_
      exact fun _ s₂ h₂ => IsTrans.trans _ _ _ h₁ h₂

/-- The same for edits that hand a value on, with an invariant for it. -/
theorem ends_foldlM (inv : β → σ → Prop) {l : List α} {f : β → α → Edit σ β} {b : β}
    (hb : inv b s) (h : ∀ b, ∀ a ∈ l, ∀ s', le s s' → inv b s' →
      (f b a).Ends s' fun b' s'' => le s' s'' ∧ inv b' s'') :
    (l.foldlM f b).Ends s fun b' s' => le s s' ∧ inv b' s' := by
  induction l generalizing s b with
  | nil => exact ends_pure.2 ⟨refl s, hb⟩
  | cons a rest ih =>
      rw [List.foldlM_cons]
      refine (h b a List.mem_cons_self s (refl s) hb).bind fun b' s₁ h₁ => ?_
      refine (ih h₁.2 fun c x hx s' hs' hc =>
        h c x (List.mem_cons_of_mem _ hx) s' (IsTrans.trans _ _ _ h₁.1 hs') hc).mono ?_
      exact fun _ s₂ h₂ => ⟨IsTrans.trans _ _ _ h₁.1 h₂.1, h₂.2⟩

/-- What a repetition returns keeps its property during those that follow. -/
theorem ends_mapM (out : β → σ → Prop) (hout : ∀ b s s', le s s' → out b s → out b s')
    {l : List α} {f : α → Edit σ β}
    (h : ∀ a ∈ l, ∀ s', le s s' → (f a).Ends s' fun b s'' => le s' s'' ∧ out b s'') :
    (l.mapM f).Ends s fun bs s' => le s s' ∧ (∀ b ∈ bs, out b s') ∧ bs.length = l.length := by
  induction l generalizing s with
  | nil =>
      rw [List.mapM_nil]
      exact ends_pure.2 ⟨refl s, fun b hb => absurd hb List.not_mem_nil, rfl⟩
  | cons a rest ih =>
      rw [List.mapM_cons]
      refine (h a List.mem_cons_self s (refl s)).bind fun b s₁ h₁ => ?_
      refine (ih fun x hx s' hs' =>
        h x (List.mem_cons_of_mem _ hx) s' (IsTrans.trans _ _ _ h₁.1 hs')).bind fun bs s₂ h₂ => ?_
      refine ends_pure.2 ⟨IsTrans.trans _ _ _ h₁.1 h₂.1, fun c hc => ?_, ?_⟩
      · rcases List.mem_cons.1 hc with rfl | hc
        · exact hout _ _ _ h₂.1 h₁.2
        · exact h₂.2.1 c hc
      · rw [List.length_cons, List.length_cons, h₂.2.2]

end Loops

/-- A repetition returns as many results as there are repetitions. -/
theorem ends_mapM_length (l : List α) (f : α → Edit σ β) (s : σ) :
    (l.mapM f).Ends s fun bs _ => bs.length = l.length := by
  induction l generalizing s with
  | nil =>
      rw [List.mapM_nil]
      exact ends_pure.2 rfl
  | cons a rest ih =>
      rw [List.mapM_cons]
      refine ends_bind.2 fun b s₁ _ => (ih s₁).bind fun bs s₂ hlength => ends_pure.2 ?_
      rw [List.length_cons, List.length_cons, hlength]

end Edit

end QuadAlgebra
