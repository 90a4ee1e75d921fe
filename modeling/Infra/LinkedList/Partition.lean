import Infra.LinkedList.Family
import Mathlib.Data.Sum.Basic

/-!
# Moving entries to another list

The loop that walks a list and moves the entries that pass a test to the tail of
another list. It splits the entries in two, and each part keeps its order. Its
invariant splits the list into the entries that were seen and those that are
still to come: what was seen and stays is in front of what is to come, and what
was seen and goes is behind what the other list held before.
-/

namespace Infra

namespace LinkedList

section Definition

variable {κ ε : Type} [DecidableEq κ] [DecidableEq ε]

/-- The body of the loop: an entry that passes the test is deleted and added to
the list at `dest`. -/
def moveIf (test : ε → Option Bool) (dest : κ) (p : κ ⊕ ε) (h : Heap (κ ⊕ ε)) :
    Option (Heap (κ ⊕ ε)) :=
  match p with
  | .inl _ => none
  | .inr e => do
      let found ← test e
      if found then do
        let h ← listDel h (.inr e)
        listAddTail h (.inr e) (.inl dest)
      else some h

/-- The entries of the lists when `seen` and `todo` are behind and ahead of the
loop over the list at `src`. -/
def moving (R : κ → List ε) (src dest : κ) (b : ε → Bool) (seen todo : List ε) : κ → List ε :=
  Function.update (Function.update R src (seen.filter (fun e => !b e) ++ todo)) dest
    (R dest ++ seen.filter b)

end Definition

namespace Rings

variable {κ ε : Type} [DecidableEq κ] [DecidableEq ε] {h h' : Heap (κ ⊕ ε)} {K : Set κ}
  {R : κ → List ε} {src dest : κ} {b : ε → Bool} {seen todo : List ε}

omit [DecidableEq ε] in
@[simp] theorem moving_src (hne : src ≠ dest) :
    moving R src dest b seen todo src = seen.filter (fun e => !b e) ++ todo := by
  rw [moving, Function.update_of_ne hne, Function.update_self]

omit [DecidableEq ε] in
@[simp] theorem moving_dest : moving R src dest b seen todo dest = R dest ++ seen.filter b := by
  rw [moving, Function.update_self]

omit [DecidableEq ε] in
theorem moving_other {k : κ} (hs : k ≠ src) (hd : k ≠ dest) :
    moving R src dest b seen todo k = R k := by
  rw [moving, Function.update_of_ne hd, Function.update_of_ne hs]

omit [DecidableEq κ] [DecidableEq ε] in
/-- The loop lists the elements that were listed before it. -/
theorem listed_moving [DecidableEq κ] (hsrc : src ∈ K) (hdest : dest ∈ K)
    (hsplit : R src = seen ++ todo) {e : ε}
    (he : Listed K (moving R src dest b seen todo) e) : Listed K R e := by
  obtain ⟨k, hk, he⟩ := he
  by_cases hd : k = dest
  · subst hd
    rw [moving_dest] at he
    rcases List.mem_append.mp he with he | he
    · exact ⟨_, hdest, he⟩
    · exact ⟨_, hsrc, by simp [hsplit, (List.mem_filter.mp he).1]⟩
  · by_cases hs : k = src
    · subst hs
      rw [moving_src hd] at he
      refine ⟨_, hsrc, ?_⟩
      rw [hsplit]
      rcases List.mem_append.mp he with he | he
      · exact List.mem_append_left _ (List.mem_filter.mp he).1
      · exact List.mem_append_right _ he
    · rw [moving_other hs hd] at he
      exact ⟨k, hk, he⟩

/-- One round of the loop. -/
theorem moveIf_step {test : ε → Option Bool} {e : ε}
    (r : Rings h K (moving R src dest b seen (e :: todo))) (hsrc : src ∈ K) (hdest : dest ∈ K)
    (hne : src ≠ dest) (ht : test e = some (b e)) :
    ∃ h', moveIf test dest (.inr e) h = some h' ∧
      Rings h' K (moving R src dest b (seen ++ [e]) todo) ∧
      SameOutside h h' (Owns K (moving R src dest b seen (e :: todo))) := by
  cases hb : b e with
  | false =>
      refine ⟨h, by simp [moveIf, ht, hb], r.congr_entries fun k _ => ?_,
        ⟨fun _ => Iff.rfl, fun _ _ => rfl⟩⟩
      simp [moving, List.filter_append, hb]
  | true =>
      have hmem : e ∈ moving R src dest b seen (e :: todo) src := by simp [hne]
      have hlist : Listed K (moving R src dest b seen (e :: todo)) e := ⟨src, hsrc, hmem⟩
      obtain ⟨h₁, e₁, r₁, s₁⟩ := r.listDel_spec hlist
      obtain ⟨h₂, e₂, r₂, s₂⟩ := r₁.listAddTail_spec (k := dest) hdest
        ((s₁.live _).mpr (r.live hlist)) (r.not_listed_erase e)
      refine ⟨h₂, by simp [moveIf, ht, hb, e₁, e₂], r₂.congr_entries fun k hk => ?_,
        s₁.trans (s₂.mono ?_)⟩
      · by_cases hd : k = dest
        · subst hd
          have hnot : e ∉ moving R src k b seen (e :: todo) k :=
            fun hm => hne (r.eq_of_mem hsrc hk hmem hm)
          rw [Function.update_self, List.erase_of_not_mem hnot]
          simp [List.filter_append, hb]
        · rw [Function.update_of_ne hd]
          by_cases hs : k = src
          · subst hs
            have hnot : e ∉ seen.filter fun x => !b x := by simp [hb]
            rw [moving_src hd, moving_src hd, List.erase_append_right _ hnot,
              List.erase_cons_head]
            simp [List.filter_append, hb]
          · have hnot : e ∉ moving R src dest b seen (e :: todo) k :=
              fun hm => hs (r.eq_of_mem hk hsrc hm hmem)
            rw [List.erase_of_not_mem hnot, moving_other hs hd, moving_other hs hd]
      · rintro a (rfl | ha)
        · exact hlist
        · cases a with
          | inl k => exact ha
          | inr x =>
              obtain ⟨k, hk, hm⟩ := ha
              exact ⟨k, hk, List.mem_of_mem_erase hm⟩

/-- The invariant of the loop: what is behind and ahead of it are elements, never the
head. -/
def MovingAt (h : Heap (κ ⊕ ε)) (K : Set κ) (R : κ → List ε) (src dest : κ) (b : ε → Bool)
    (done todo : List (κ ⊕ ε)) (h' : Heap (κ ⊕ ε)) : Prop :=
  ∃ as bs : List ε, done = as.map .inr ∧ todo = bs.map .inr ∧ R src = as ++ bs ∧
    Rings h' K (moving R src dest b as bs) ∧ SameOutside h h' (Owns K R)

omit [DecidableEq ε] in
theorem movingAt_start (r : Rings h K R) (hne : src ≠ dest) :
    MovingAt h K R src dest b [] ((R src).map .inr) h := by
  refine ⟨[], R src, rfl, rfl, rfl, r.congr_entries fun k _ => ?_,
    ⟨fun _ => Iff.rfl, fun _ _ => rfl⟩⟩
  by_cases hd : k = dest
  · subst hd
    simp
  · by_cases hs : k = src
    · subst hs
      simp [hne]
    · exact moving_other hs hd

omit [DecidableEq ε] in
theorem MovingAt.walk {done todo : List (κ ⊕ ε)} (hsrc : src ∈ K)
    (hne : src ≠ dest) (hI : MovingAt h K R src dest b done todo h') :
    Walk h' (.inl src) todo := by
  obtain ⟨as, bs, -, rfl, -, r', -⟩ := hI
  have hring := r'.ring src hsrc
  rw [moving_src hne, List.map_append] at hring
  exact Walk.of_suffix hring

theorem MovingAt.step {test : ε → Option Bool} {done todo : List (κ ⊕ ε)} {x : κ ⊕ ε}
    (hI : MovingAt h K R src dest b done (x :: todo) h') (hsrc : src ∈ K) (hdest : dest ∈ K)
    (hne : src ≠ dest) (ht : ∀ e, x = .inr e → e ∈ R src → test e = some (b e)) :
    ∃ h'', moveIf test dest x h' = some h'' ∧
      MovingAt h K R src dest b (done ++ [x]) todo h'' := by
  obtain ⟨as, bs, rfl, hbs, hsplit, r', s'⟩ := hI
  cases bs with
  | nil => simp at hbs
  | cons e bs =>
      simp only [List.map_cons, List.cons.injEq] at hbs
      obtain ⟨rfl, rfl⟩ := hbs
      obtain ⟨h'', e'', r'', s''⟩ :=
        r'.moveIf_step hsrc hdest hne (ht e rfl (by simp [hsplit]))
      refine ⟨h'', e'', as ++ [e], bs, by simp, rfl, by simp [hsplit], r'',
        s'.trans (s''.mono ?_)⟩
      intro a ha
      cases a with
      | inl k => exact ha
      | inr y => exact listed_moving hsrc hdest hsplit ha

/-- The loop splits the list at `src`. -/
theorem moveIf_spec {test : ε → Option Bool} {fuel : ℕ} (r : Rings h K R) (hsrc : src ∈ K)
    (hdest : dest ∈ K) (hne : src ≠ dest) (ht : ∀ e ∈ R src, test e = some (b e))
    (hf : (R src).length < fuel) :
    ∃ h', listForEachSafe id (moveIf test dest) (.inl src) fuel h = some h' ∧
      Rings h' K (Function.update (Function.update R src ((R src).filter fun e => !b e)) dest
        (R dest ++ (R src).filter b)) ∧ SameOutside h h' (Owns K R) := by
  obtain ⟨h', e', as, bs, has, hbs, -, r', s'⟩ := (r.ring src hsrc).listForEachSafe_rule
    (I := MovingAt h K R src dest b) (fun _ _ _ hI => hI.walk hsrc hne)
    (fun _ _ _ _ hI => hI.step hsrc hdest hne fun e _ he => ht e he)
    (r.movingAt_start hne) (by simpa using hf)
  obtain rfl : as = R src := (List.map_injective_iff.mpr Sum.inr_injective has).symm
  obtain rfl : bs = [] := by simpa using hbs
  refine ⟨h', e', ?_, s'⟩
  simpa [moving] using r'

/-- A loop that returns has tested each entry, and the test had a result. -/
theorem moveIf_returns {test : ε → Option Bool} {fuel : ℕ} (r : Rings h K R) (hsrc : src ∈ K)
    (hdest : dest ∈ K) (hne : src ≠ dest)
    (h₁ : listForEachSafe id (moveIf test dest) (.inl src) fuel h = some h') :
    ∀ e ∈ R src, (test e).isSome := by
  have htest : ∀ e h₁ h₂, moveIf test dest (.inr e) h₁ = some h₂ → (test e).isSome := by
    intro e h₁ h₂ hmove
    obtain ⟨found, hfound, -⟩ := Option.bind_eq_some_iff.mp hmove
    simp [hfound]
  have hbody : ∀ done x todo h₁ h₂,
      MovingAt h K R src dest (fun e => (test e).getD false) done (x :: todo) h₁ →
      moveIf test dest x h₁ = some h₂ →
      MovingAt h K R src dest (fun e => (test e).getD false) (done ++ [x]) todo h₂ := by
    intro done x todo h₁ h₂ hI hmove
    have hsame : ∀ e, x = .inr e → e ∈ R src → test e = some ((test e).getD false) := by
      rintro e rfl -
      obtain ⟨found, hfound⟩ := Option.isSome_iff_exists.mp (htest e h₁ h₂ hmove)
      simp [hfound]
    obtain ⟨h₃, hmove', hI'⟩ := hI.step hsrc hdest hne hsame
    obtain rfl := Option.some.inj (hmove.symm.trans hmove')
    exact hI'
  intro e he
  obtain ⟨h₂, h₃, hmove⟩ := (r.ring src hsrc).listForEachSafe_returns
    (I := MovingAt h K R src dest fun e => (test e).getD false)
    (fun _ _ _ hI => hI.walk hsrc hne) hbody (r.movingAt_start hne) h₁ (.inr e)
    (List.mem_map_of_mem he)
  exact htest e h₂ h₃ hmove

end Rings

end LinkedList

end Infra
