import Mathlib.Data.List.Basic

/-!
# Traces of a labelled step relation

`Trace Step s ls s'` is a run from `s` to `s'` whose steps carry the labels `ls`.
A trace grows at its end, so an invariant can speak about the labels so far.
-/

namespace Infra

variable {σ ι : Type*}

/-- A run from `s` whose steps carry the labels of a list. -/
inductive Trace (Step : σ → ι → σ → Prop) (s : σ) : List ι → σ → Prop where
  | nil : Trace Step s [] s
  | concat {ls : List ι} {l : ι} {s₁ s₂ : σ} :
      Trace Step s ls s₁ → Step s₁ l s₂ → Trace Step s (ls ++ [l]) s₂

/-- A split of a list with one element behind it is a split of the list, or the last
element is alone. -/
theorem append_singleton_eq {xs pre post : List ι} {x y : ι}
    (h : xs ++ [x] = pre ++ y :: post) :
    (pre = xs ∧ y = x ∧ post = []) ∨ ∃ post', post = post' ++ [x] ∧ xs = pre ++ y :: post' := by
  rcases List.eq_nil_or_concat post with rfl | ⟨post, z, rfl⟩
  · obtain ⟨rfl, hlast⟩ := List.append_inj' h rfl
    exact Or.inl ⟨rfl, (List.singleton_inj.mp hlast).symm, rfl⟩
  · rw [List.concat_eq_append, ← List.cons_append, ← List.append_assoc] at h
    obtain ⟨rfl, hlast⟩ := List.append_inj' h rfl
    obtain rfl := List.singleton_inj.mp hlast
    exact Or.inr ⟨post, List.concat_eq_append, rfl⟩

namespace Trace

variable {Step : σ → ι → σ → Prop} {s s₁ s₂ : σ} {ls ls' : List ι}

theorem single {l : ι} (h : Step s l s₁) : Trace Step s [l] s₁ := nil.concat h

/-- The last step of a trace. -/
theorem concat_inv {l : ι} (h : Trace Step s (ls ++ [l]) s₂) :
    ∃ s₁, Trace Step s ls s₁ ∧ Step s₁ l s₂ := by
  generalize hls : ls ++ [l] = ls' at h
  cases h with
  | nil => simp at hls
  | concat h hstep =>
      obtain ⟨rfl, hl⟩ := List.append_inj' hls rfl
      obtain rfl := List.singleton_inj.mp hl
      exact ⟨_, h, hstep⟩

/-- Two traces, one after the other. -/
theorem append (h : Trace Step s ls s₁) (h' : Trace Step s₁ ls' s₂) :
    Trace Step s (ls ++ ls') s₂ := by
  induction h' with
  | nil => simpa using h
  | concat _ hstep ih =>
      rw [← List.append_assoc]
      exact ih.concat hstep

/-- A trace can be cut anywhere. -/
theorem cut (h : Trace Step s ls s₂) :
    ∀ as bs, ls = as ++ bs → ∃ s₁, Trace Step s as s₁ ∧ Trace Step s₁ bs s₂ := by
  induction h with
  | nil =>
      intro as bs hls
      obtain ⟨rfl, rfl⟩ := List.append_eq_nil_iff.mp hls.symm
      exact ⟨s, nil, nil⟩
  | @concat ls l s₁ s₂ h hstep ih =>
      intro as bs hls
      rcases List.eq_nil_or_concat bs with rfl | ⟨bs, l', rfl⟩
      · rw [List.append_nil] at hls
        exact ⟨s₂, hls ▸ h.concat hstep, nil⟩
      · rw [List.concat_eq_append] at hls ⊢
        rw [← List.append_assoc] at hls
        obtain ⟨has, hl⟩ := List.append_inj' hls rfl
        obtain rfl := List.singleton_inj.mp hl
        obtain ⟨s', h₁, h₂⟩ := ih as bs has
        exact ⟨s', h₁, h₂.concat hstep⟩

/-- Steps that are steps of another relation. -/
theorem imp {Step' : σ → ι → σ → Prop} (h : Trace Step s ls s₁)
    (hstep : ∀ s₁ l s₂, Step s₁ l s₂ → Step' s₁ l s₂) : Trace Step' s ls s₁ := by
  induction h with
  | nil => exact nil
  | concat _ hl ih => exact ih.concat (hstep _ _ _ hl)

/-- The rule for an invariant that speaks about the labels so far, over a trace
whose labels are all of one kind. -/
theorem rule {P : ι → Prop} {I : List ι → σ → Prop} (h : Trace Step s ls s₂)
    (hP : ∀ l ∈ ls, P l) (hnil : I [] s)
    (hstep : ∀ ls s₁ l s₂, P l → I ls s₁ → Step s₁ l s₂ → I (ls ++ [l]) s₂) : I ls s₂ := by
  induction h with
  | nil => exact hnil
  | concat _ hl ih =>
      exact hstep _ _ _ _ (hP _ (by simp)) (ih fun l hm => hP l (by simp [hm])) hl

/-- What every step keeps, every trace keeps. -/
theorem invariant {I : σ → Prop} (h : Trace Step s ls s₂)
    (hstep : ∀ s₁ l s₂, I s₁ → Step s₁ l s₂ → I s₂) (hs : I s) : I s₂ := by
  induction h with
  | nil => exact hs
  | concat _ hl ih => exact hstep _ _ _ ih hl

end Trace

end Infra
