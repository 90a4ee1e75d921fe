import Infra.LinkedList.Iterate
import Mathlib.Data.Set.Insert

/-!
# Families of lists that share their elements

A component of the library keeps several lists, and each element is an entry of
at most one of them. `Rings h K R` is this situation: for each head `k` of `K`
the entries of the list at `k` are `R k`, and no element is listed twice. Heads
and elements are the two kinds of nodes.

An operation on one element changes the family at one place, and the elements
that are not listed keep their links.
-/

namespace Infra

namespace LinkedList

/-- For each head `k` of `K` the entries of the list at `k` are `R k`, and no
element is an entry of two lists. -/
structure Rings {κ ε : Type*} (h : Heap (κ ⊕ ε)) (K : Set κ) (R : κ → List ε) : Prop where
  ring : ∀ k ∈ K, Ring h (.inl k) ((R k).map .inr)
  disjoint : ∀ j ∈ K, ∀ k ∈ K, ∀ e, e ∈ R j → e ∈ R k → j = k

/-- The element `e` is an entry of some list of the family. -/
def Listed {κ ε : Type*} (K : Set κ) (R : κ → List ε) (e : ε) : Prop :=
  ∃ k ∈ K, e ∈ R k

/-- The nodes of a family: its heads and its listed elements. -/
def Owns {κ ε : Type*} (K : Set κ) (R : κ → List ε) : κ ⊕ ε → Prop
  | .inl k => k ∈ K
  | .inr e => Listed K R e

namespace Rings

variable {κ ε : Type*} {h h' : Heap (κ ⊕ ε)} {K L : Set κ} {R : κ → List ε}

theorem nodup (r : Rings h K R) {k : κ} (hk : k ∈ K) : (R k).Nodup :=
  (r.ring k hk).nodup_entries.of_map _

theorem live (r : Rings h K R) {e : ε} (he : Listed K R e) : h.Live (.inr e) := by
  obtain ⟨k, hk, hek⟩ := he
  exact (r.ring k hk).live (by simp [hek])

theorem owns_of_mem_ring {k : κ} (hk : k ∈ K) {a : κ ⊕ ε}
    (ha : a ∈ Sum.inl k :: (R k).map Sum.inr) : Owns K R a := by
  rcases List.mem_cons.mp ha with rfl | ha
  · exact hk
  · obtain ⟨x, hx, rfl⟩ := List.mem_map.mp ha
    exact ⟨k, hk, hx⟩

/-- A family only depends on the links of its own nodes. -/
theorem congr (r : Rings h K R) (e : ∀ a, Owns K R a → h' a = h a) : Rings h' K R :=
  ⟨fun k hk => (r.ring k hk).congr fun a ha => e a (owns_of_mem_ring hk ha), r.disjoint⟩

theorem mono (r : Rings h K R) (hL : L ⊆ K) : Rings h L R :=
  ⟨fun k hk => r.ring k (hL hk), fun j hj k hk => r.disjoint j (hL hj) k (hL hk)⟩

/-- The entries may be given by any function that agrees on the heads. -/
theorem congr_entries {R' : κ → List ε} (r : Rings h K R) (e : ∀ k ∈ K, R' k = R k) :
    Rings h K R' := by
  refine ⟨fun k hk => by rw [e k hk]; exact r.ring k hk, ?_⟩
  intro j hj k hk x hxj hxk
  rw [e j hj] at hxj
  rw [e k hk] at hxk
  exact r.disjoint j hj k hk x hxj hxk

theorem eq_of_mem (r : Rings h K R) {j k : κ} (hj : j ∈ K) (hk : k ∈ K) {e : ε}
    (hej : e ∈ R j) (hek : e ∈ R k) : j = k := r.disjoint j hj k hk e hej hek

/-- Lists without entries form a family. -/
theorem of_nil (hK : ∀ k ∈ K, Ring h (.inl k) []) : Rings h K fun _ => [] :=
  ⟨hK, fun _ _ _ _ _ he => absurd he List.not_mem_nil⟩

/-- A head that is a list of its own joins the family with no entries. -/
theorem insert_head [DecidableEq κ] (r : Rings h K R) {k : κ} (hk : k ∉ K)
    (hr : Ring h (.inl k) []) :
    Rings h (insert k K) (Function.update R k []) := by
  have hold : ∀ j ∈ K, Function.update R k [] j = R j := by
    intro j hj
    have hjk : j ≠ k := fun e => hk (e ▸ hj)
    exact Function.update_of_ne hjk _ _
  refine ⟨?_, ?_⟩
  · rintro j (rfl | hj)
    · simpa using hr
    · rw [hold j hj]
      exact r.ring j hj
  · rintro i (rfl | hi) j (rfl | hj) e hei hej
    · rfl
    · simp at hei
    · simp at hej
    · rw [hold i hi] at hei
      rw [hold j hj] at hej
      exact r.disjoint i hi j hj e hei hej

/-- `INIT_LIST_HEAD` of a further head, when no list has entries. -/
theorem initListHead_spec [DecidableEq κ] [DecidableEq ε] (r : Rings h K fun _ => [])
    (hl : ∀ k, h.Live (.inl k)) (k : κ) :
    ∃ h', initListHead h (.inl k) = some h' ∧ (Rings h' (insert k K) fun _ => []) ∧
      ∀ j, h'.Live (.inl j) := by
  obtain ⟨h', e', s, r'⟩ := Ring.of_initListHead (h := h) (.inl k) (hl k)
  refine ⟨h', e', of_nil ?_, fun j => (s.live _).mpr (hl j)⟩
  rintro j (rfl | hj)
  · exact r'
  · by_cases hjk : j = k
    · exact hjk ▸ r'
    · exact (r.ring j hj).of_sameOutside s (by simpa using hjk)

/-- An element that was deleted is not listed any more. -/
theorem not_listed_erase [DecidableEq ε] (r : Rings h K R) (e : ε) :
    ¬ Listed K (fun j => (R j).erase e) e := by
  rintro ⟨k, hk, hm⟩
  exact ((r.nodup hk).mem_erase_iff.mp hm).1 rfl

section Operations

variable [DecidableEq κ] [DecidableEq ε]

/-- `list_add_tail` of an element that is not listed. -/
theorem listAddTail_spec (r : Rings h K R) {k : κ} (hk : k ∈ K) {e : ε}
    (hl : h.Live (.inr e)) (he : ¬ Listed K R e) :
    ∃ h', listAddTail h (.inr e) (.inl k) = some h' ∧
      Rings h' K (Function.update R k (R k ++ [e])) ∧
      SameOutside h h' (fun a => a = .inr e ∨ Owns K R a) := by
  obtain ⟨h', e', r', s⟩ := (r.ring k hk).listAddTail_spec hl
    (by simpa using fun hm => he ⟨k, hk, hm⟩)
  refine ⟨h', e', ⟨fun j hj => ?_, ?_⟩, s.mono ?_⟩
  · by_cases hjk : j = k
    · subst hjk
      simpa using r'
    · rw [Function.update_of_ne hjk]
      refine (r.ring j hj).of_sameOutside s ?_
      intro a ha
      rcases List.mem_cons.mp ha with rfl | ha
      · simpa using hjk
      · obtain ⟨x, hx, rfl⟩ := List.mem_map.mp ha
        have hxe : x ≠ e := fun h => he ⟨j, hj, h ▸ hx⟩
        simpa [hxe] using fun hm => hjk (r.disjoint j hj k hk x hx hm)
  · intro i hi j hj x hxi hxj
    simp only [Function.update_apply] at hxi hxj
    split at hxi <;> split at hxj
    · simp_all
    · next h₁ h₂ =>
      rcases List.mem_append.mp hxi with hxi | hxi
      · exact h₁.trans (r.disjoint k hk j hj x hxi hxj)
      · exact absurd ⟨j, hj, by simpa using List.mem_singleton.mp hxi ▸ hxj⟩ he
    · next h₁ h₂ =>
      rcases List.mem_append.mp hxj with hxj | hxj
      · exact (r.disjoint i hi k hk x hxi hxj).trans h₂.symm
      · exact absurd ⟨i, hi, by simpa using List.mem_singleton.mp hxj ▸ hxi⟩ he
    · exact r.disjoint i hi j hj x hxi hxj
  · rintro a (rfl | ha)
    · exact Or.inl rfl
    · exact Or.inr (owns_of_mem_ring hk ha)

/-- What taking one element out of its list does to the whole family. -/
theorem erase_of_ring (r : Rings h K R) {k : κ} (hk : k ∈ K) {e : ε} {as bs : List ε}
    (hR : R k = as ++ e :: bs) {S : κ ⊕ ε → Prop} (s : SameOutside h h' S)
    (hS : ∀ a, S a → a ∈ Sum.inl k :: (R k).map Sum.inr)
    (r' : Ring h' (.inl k) ((as ++ bs).map .inr)) :
    Rings h' K (fun j => (R j).erase e) := by
  have hnd := r.nodup hk
  have hek : e ∈ R k := by simp [hR]
  have herase : (R k).erase e = as ++ bs := by
    rw [hR] at hnd ⊢
    have : e ∉ as := fun hm => by
      have := (List.nodup_append.mp hnd).2.2 e hm e (by simp)
      exact this rfl
    rw [List.erase_append_right _ this, List.erase_cons_head]
  refine ⟨fun j hj => ?_, ?_⟩
  · by_cases hjk : j = k
    · subst hjk
      rw [herase]
      exact r'
    · have hne : e ∉ R j := fun hm => hjk (r.disjoint j hj k hk e hm hek)
      rw [List.erase_of_not_mem hne]
      refine (r.ring j hj).of_sameOutside s ?_
      intro a ha hSa
      rcases List.mem_cons.mp ha with rfl | ha
      · simpa [hjk] using hS _ hSa
      · obtain ⟨x, hx, rfl⟩ := List.mem_map.mp ha
        have hxk : x ∈ R k := by simpa using hS _ hSa
        exact hjk (r.disjoint j hj k hk x hx hxk)
  · intro i hi j hj x hxi hxj
    exact r.disjoint i hi j hj x (List.mem_of_mem_erase hxi) (List.mem_of_mem_erase hxj)

/-- `list_del` of a listed element. -/
theorem listDel_spec (r : Rings h K R) {e : ε} (he : Listed K R e) :
    ∃ h', listDel h (.inr e) = some h' ∧ Rings h' K (fun j => (R j).erase e) ∧
      SameOutside h h' (Owns K R) := by
  obtain ⟨k, hk, hek⟩ := he
  obtain ⟨as, bs, hR⟩ := List.append_of_mem hek
  have hring := r.ring k hk
  rw [hR, List.map_append, List.map_cons] at hring
  obtain ⟨h', e', r', s⟩ := hring.listDel_spec
  refine ⟨h', e', r.erase_of_ring hk hR s (fun a ha => by simpa [hR] using ha)
    (by simpa using r'), s.mono fun a ha => owns_of_mem_ring hk (by simpa [hR] using ha)⟩

/-- `list_del_init` of a listed element: it becomes a list of its own. -/
theorem listDelInit_spec (r : Rings h K R) {e : ε} (he : Listed K R e) :
    ∃ h', listDelInit h (.inr e) = some h' ∧ Rings h' K (fun j => (R j).erase e) ∧
      Ring h' (.inr e) [] ∧ SameOutside h h' (Owns K R) := by
  obtain ⟨k, hk, hek⟩ := he
  obtain ⟨as, bs, hR⟩ := List.append_of_mem hek
  have hring := r.ring k hk
  rw [hR, List.map_append, List.map_cons] at hring
  obtain ⟨h', e', r', re, s⟩ := hring.listDelInit_spec
  refine ⟨h', e', r.erase_of_ring hk hR s (fun a ha => by simpa [hR] using ha)
    (by simpa using r'), re, s.mono fun a ha => owns_of_mem_ring hk (by simpa [hR] using ha)⟩

end Operations

end Rings

end LinkedList

end Infra
