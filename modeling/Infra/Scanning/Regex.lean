import Mathlib.Computability.Language

/-!
# Regular expressions over character classes

The letters of an expression are classes of characters, so the alphabet may be
large. The language of an expression is the usual one; `deriv` is the derivative
by a character, with which membership and the longest prefix in the language are
computed.
-/

namespace Infra

/-- A regular expression over classes of characters. -/
inductive Regex (α : Type) where
  | none
  | epsilon
  | cls (p : α → Bool)
  | alt (r s : Regex α)
  | seq (r s : Regex α)
  | star (r : Regex α)

namespace Regex

open Computability

section Definitions

variable {α : Type}

/-- The words that an expression matches. -/
def lang : Regex α → Language α
  | none => 0
  | epsilon => 1
  | cls p => {w | ∃ a, p a ∧ w = [a]}
  | alt r s => r.lang + s.lang
  | seq r s => r.lang * s.lang
  | star r => r.lang∗

/-- The expression matches the empty word. -/
def nullable : Regex α → Bool
  | none => false
  | epsilon => true
  | cls _ => false
  | alt r s => r.nullable || s.nullable
  | seq r s => r.nullable && s.nullable
  | star _ => true

/-- `alt` that drops an expression without words. -/
def mkAlt : Regex α → Regex α → Regex α
  | none, s => s
  | r, none => r
  | r, s => alt r s

/-- `seq` that drops an expression without words or with the empty word only. -/
def mkSeq : Regex α → Regex α → Regex α
  | none, _ => none
  | epsilon, s => s
  | r, s => seq r s

/-- The derivative by a character: what may follow it. -/
def deriv (a : α) : Regex α → Regex α
  | none => none
  | epsilon => none
  | cls p => if p a then epsilon else none
  | alt r s => mkAlt (deriv a r) (deriv a s)
  | seq r s =>
      if r.nullable then mkAlt (mkSeq (deriv a r) s) (deriv a s) else mkSeq (deriv a r) s
  | star r => mkSeq (deriv a r) (star r)

/-- The expression matches the word. -/
def accepts (r : Regex α) (w : List α) : Bool := (w.foldl (fun r a => r.deriv a) r).nullable

/-- The length of the longest prefix of the word that the expression matches. -/
def longest (r : Regex α) : List α → Option ℕ
  | [] => if r.nullable then some 0 else .none
  | a :: w =>
      match (r.deriv a).longest w with
      | some n => some (n + 1)
      | .none => if r.nullable then some 0 else .none

/-- A single character. -/
def chr [DecidableEq α] (a : α) : Regex α := cls fun b => decide (b = a)

/-- A fixed word. -/
def str [DecidableEq α] : List α → Regex α
  | [] => epsilon
  | a :: w => seq (chr a) (str w)

/-- One or more. -/
def plus (r : Regex α) : Regex α := seq r (star r)

/-- One or none. -/
def opt (r : Regex α) : Regex α := alt r epsilon

/-- Every class of the expression is part of `P`. -/
def Over (P : α → Prop) : Regex α → Prop
  | none => True
  | epsilon => True
  | cls p => ∀ a, p a → P a
  | alt r s => r.Over P ∧ s.Over P
  | seq r s => r.Over P ∧ s.Over P
  | star r => r.Over P

end Definitions

/-! ## The words of each form -/

section Words

variable {α : Type} {r s : Regex α} {w : List α}

@[simp] theorem mem_none : w ∉ (none : Regex α).lang := Language.notMem_zero w

@[simp] theorem mem_epsilon : w ∈ (epsilon : Regex α).lang ↔ w = [] := Language.mem_one w

@[simp] theorem mem_cls {p : α → Bool} : w ∈ (cls p).lang ↔ ∃ a, p a ∧ w = [a] := Iff.rfl

@[simp] theorem mem_alt : w ∈ (alt r s).lang ↔ w ∈ r.lang ∨ w ∈ s.lang :=
  Language.mem_add _ _ w

theorem mem_seq : w ∈ (seq r s).lang ↔ ∃ u ∈ r.lang, ∃ v ∈ s.lang, u ++ v = w :=
  Language.mem_mul

theorem append_mem_seq {u v : List α} (hu : u ∈ r.lang) (hv : v ∈ s.lang) :
    u ++ v ∈ (seq r s).lang := Language.append_mem_mul hu hv

theorem mem_star : w ∈ (star r).lang ↔ ∃ L : List (List α), w = L.flatten ∧ ∀ u ∈ L, u ∈ r.lang :=
  Language.mem_kstar

theorem nil_mem_star : [] ∈ (star r).lang := Language.nil_mem_kstar _

theorem append_mem_star {u v : List α} (hu : u ∈ r.lang) (hv : v ∈ (star r).lang) :
    u ++ v ∈ (star r).lang := by
  obtain ⟨L, rfl, hL⟩ := mem_star.mp hv
  exact mem_star.mpr ⟨u :: L, rfl, by simpa using ⟨hu, hL⟩⟩

/-- Induction over the words of a star. -/
theorem star_induction {P : List α → Prop} (nil : P [])
    (append : ∀ u v, u ∈ r.lang → v ∈ (star r).lang → P v → P (u ++ v))
    (hw : w ∈ (star r).lang) : P w := by
  obtain ⟨L, rfl, hL⟩ := mem_star.mp hw
  clear hw
  induction L with
  | nil => exact nil
  | cons u L ih =>
      rw [List.forall_mem_cons] at hL
      exact append u L.flatten hL.1 (mem_star.mpr ⟨L, rfl, hL.2⟩) (ih hL.2)

/-- A word of a star that is not empty starts with a word that is not empty. -/
theorem cons_mem_star {a : α} :
    a :: w ∈ (star r).lang ↔ ∃ u v, a :: u ∈ r.lang ∧ v ∈ (star r).lang ∧ w = u ++ v := by
  constructor
  · intro h
    have h : a :: w ∈ r.lang∗ := h
    rw [Language.kstar_def_nonempty] at h
    obtain ⟨L, hw, hL⟩ := h
    cases L with
    | nil => simp at hw
    | cons u L =>
        obtain ⟨hu, hne⟩ := hL u List.mem_cons_self
        cases u with
        | nil => exact absurd rfl hne
        | cons b u =>
            simp only [List.flatten_cons, List.cons_append, List.cons.injEq] at hw
            obtain ⟨rfl, rfl⟩ := hw
            exact ⟨u, L.flatten, hu,
              mem_star.mpr ⟨L, rfl, fun v hv => (hL v (List.mem_cons_of_mem _ hv)).1⟩, rfl⟩
  · rintro ⟨u, v, hu, hv, rfl⟩
    exact append_mem_star hu hv

@[simp] theorem mem_chr [DecidableEq α] {a : α} : w ∈ (chr a).lang ↔ w = [a] := by
  simp [chr]

@[simp] theorem mem_str [DecidableEq α] {u : List α} : w ∈ (str u).lang ↔ w = u := by
  induction u generalizing w with
  | nil => simp [str]
  | cons a u ih =>
      simp only [str, mem_seq, mem_chr, exists_eq_left, ih, List.singleton_append]
      exact eq_comm

@[simp] theorem mem_opt : w ∈ (opt r).lang ↔ w ∈ r.lang ∨ w = [] := by
  simp [opt]

/-- The star of an expression that matches single characters. -/
theorem mem_star_single {P : α → Prop} (h : ∀ u, u ∈ r.lang ↔ ∃ a, P a ∧ u = [a]) :
    w ∈ (star r).lang ↔ ∀ a ∈ w, P a := by
  induction w with
  | nil => simpa using nil_mem_star
  | cons a w ih =>
      rw [cons_mem_star, List.forall_mem_cons, ← ih]
      constructor
      · rintro ⟨u, v, hu, hv, rfl⟩
        obtain ⟨b, hb, hu⟩ := (h _).mp hu
        cases hu
        exact ⟨hb, hv⟩
      · rintro ⟨ha, hw⟩
        exact ⟨[], w, (h _).mpr ⟨a, ha, rfl⟩, hw, rfl⟩

theorem mem_star_cls {p : α → Bool} : w ∈ (star (cls p)).lang ↔ ∀ a ∈ w, p a :=
  mem_star_single fun _ => mem_cls

theorem mem_plus_cls {p : α → Bool} :
    w ∈ (plus (cls p)).lang ↔ w ≠ [] ∧ ∀ a ∈ w, p a := by
  simp only [plus, mem_seq, mem_cls, mem_star_cls]
  constructor
  · rintro ⟨-, ⟨a, ha, rfl⟩, v, hv, rfl⟩
    exact ⟨by simp, by simpa using ⟨ha, hv⟩⟩
  · rintro ⟨hne, hw⟩
    cases w with
    | nil => exact absurd rfl hne
    | cons a w =>
        rw [List.forall_mem_cons] at hw
        exact ⟨[a], ⟨a, hw.1, rfl⟩, w, hw.2, rfl⟩

/-- The characters of a word are in the classes of the expression. -/
theorem Over.forall_mem {P : α → Prop} (h : r.Over P) (hw : w ∈ r.lang) : ∀ a ∈ w, P a := by
  induction r generalizing w with
  | none => exact absurd hw mem_none
  | epsilon =>
      rw [mem_epsilon.mp hw]
      simp
  | cls p =>
      obtain ⟨a, ha, rfl⟩ := hw
      simpa using h a ha
  | alt r s ihr ihs =>
      rcases mem_alt.mp hw with hw | hw
      · exact ihr h.1 hw
      · exact ihs h.2 hw
  | seq r s ihr ihs =>
      obtain ⟨u, hu, v, hv, rfl⟩ := mem_seq.mp hw
      intro a ha
      exact (List.mem_append.mp ha).elim (ihr h.1 hu a) (ihs h.2 hv a)
  | star r ih =>
      obtain ⟨L, rfl, hL⟩ := mem_star.mp hw
      intro a ha
      obtain ⟨u, hu, ha⟩ := List.mem_flatten.mp ha
      exact ih h (hL u hu) a ha

end Words

/-! ## Derivatives -/

section Derivatives

variable {α : Type} {r s : Regex α} {a : α} {w : List α}

theorem nullable_iff : r.nullable ↔ [] ∈ r.lang := by
  induction r with
  | none => simp [nullable]
  | epsilon => simp [nullable]
  | cls p => simp [nullable]
  | alt r s ihr ihs => simp [nullable, ihr, ihs]
  | seq r s ihr ihs => simp [nullable, ihr, ihs, mem_seq]
  | star r => simpa [nullable] using nil_mem_star

theorem mem_mkAlt : w ∈ (mkAlt r s).lang ↔ w ∈ r.lang ∨ w ∈ s.lang := by
  cases r <;> cases s <;> simp [mkAlt]

theorem mem_mkSeq : w ∈ (mkSeq r s).lang ↔ w ∈ (seq r s).lang := by
  cases r <;> simp [mkSeq, mem_seq]

theorem mem_deriv : w ∈ (r.deriv a).lang ↔ a :: w ∈ r.lang := by
  induction r generalizing w with
  | none => simp [deriv]
  | epsilon => simp [deriv]
  | cls p =>
      rw [deriv]
      split
      · next h => simpa using fun _ => h
      · next h => simpa using fun hb => by simp_all
  | alt r s ihr ihs => rw [deriv, mem_mkAlt, ihr, ihs, mem_alt]
  | seq r s ihr ihs =>
      have hcons : a :: w ∈ (seq r s).lang ↔
          (∃ u, a :: u ∈ r.lang ∧ ∃ v ∈ s.lang, u ++ v = w) ∨ [] ∈ r.lang ∧ a :: w ∈ s.lang := by
        rw [mem_seq]
        constructor
        · rintro ⟨u, hu, v, hv, huv⟩
          cases u with
          | nil =>
              rw [List.nil_append] at huv
              exact Or.inr ⟨hu, huv ▸ hv⟩
          | cons b u =>
              simp only [List.cons_append, List.cons.injEq] at huv
              exact Or.inl ⟨u, huv.1 ▸ hu, v, hv, huv.2⟩
        · rintro (⟨u, hu, v, hv, rfl⟩ | ⟨hr, hs⟩)
          · exact ⟨a :: u, hu, v, hv, rfl⟩
          · exact ⟨[], hr, a :: w, hs, rfl⟩
      have hseq : w ∈ (mkSeq (r.deriv a) s).lang ↔
          ∃ u, a :: u ∈ r.lang ∧ ∃ v ∈ s.lang, u ++ v = w := by
        rw [mem_mkSeq, mem_seq]
        simp [ihr]
      rw [hcons, deriv]
      split
      · next hn => rw [mem_mkAlt, hseq, ihs, nullable_iff.mp hn |> iff_true_intro, true_and]
      · next hn => rw [hseq, nullable_iff.not.mp hn |> iff_false_intro, false_and, or_false]
  | star r ih =>
      rw [deriv, mem_mkSeq, mem_seq, cons_mem_star]
      constructor
      · rintro ⟨u, hu, v, hv, rfl⟩
        exact ⟨u, v, ih.mp hu, hv, rfl⟩
      · rintro ⟨u, v, hu, hv, rfl⟩
        exact ⟨u, ih.mpr hu, v, hv, rfl⟩

theorem accepts_iff : r.accepts w ↔ w ∈ r.lang := by
  induction w generalizing r with
  | nil => exact nullable_iff
  | cons a w ih => exact ih.trans mem_deriv

/-! ## The longest match -/

theorem longest_eq_none : r.longest w = .none ↔ ∀ m, m ≤ w.length → w.take m ∉ r.lang := by
  induction w generalizing r with
  | nil => simp [longest, nullable_iff]
  | cons a w ih =>
      have hcases : (∀ m, m ≤ (a :: w).length → (a :: w).take m ∉ r.lang) ↔
          [] ∉ r.lang ∧ ∀ m, m ≤ w.length → w.take m ∉ (r.deriv a).lang := by
        constructor
        · intro h
          exact ⟨by simpa using h 0 (by simp), fun m hm => mem_deriv.not.mpr
            (by simpa using h (m + 1) (by simpa using hm))⟩
        · rintro ⟨h₀, h⟩ m hm
          cases m with
          | zero => simpa using h₀
          | succ m => simpa using mem_deriv.not.mp (h m (by simpa using hm))
      rw [hcases, ← ih, longest]
      cases (r.deriv a).longest w <;> simp [nullable_iff]

theorem longest_eq_some {n : ℕ} : r.longest w = some n ↔
    n ≤ w.length ∧ w.take n ∈ r.lang ∧ ∀ m, n < m → m ≤ w.length → w.take m ∉ r.lang := by
  induction w generalizing r n with
  | nil =>
      simp only [longest, List.length_nil, Nat.le_zero_eq, List.take_nil]
      constructor
      · intro h
        split at h
        · next hn =>
          cases h
          exact ⟨rfl, nullable_iff.mp hn, fun m hm h₀ => by omega⟩
        · simp at h
      · rintro ⟨rfl, hn, -⟩
        simp [nullable_iff.mpr hn]
  | cons a w ih =>
      rw [longest]
      cases n with
      | zero =>
          have hnone : (∀ m, 0 < m → m ≤ (a :: w).length → (a :: w).take m ∉ r.lang) ↔
              (r.deriv a).longest w = .none := by
            rw [longest_eq_none]
            constructor
            · intro h m hm
              exact mem_deriv.not.mpr (by simpa using h (m + 1) (by omega) (by simpa using hm))
            · intro h m hm hle
              cases m with
              | zero => omega
              | succ m => simpa using mem_deriv.not.mp (h m (by simpa using hle))
          rw [hnone]
          cases (r.deriv a).longest w <;> simp [nullable_iff]
      | succ n =>
          have hsome : (n + 1 ≤ (a :: w).length ∧ (a :: w).take (n + 1) ∈ r.lang ∧
              ∀ m, n + 1 < m → m ≤ (a :: w).length → (a :: w).take m ∉ r.lang) ↔
              (r.deriv a).longest w = some n := by
            rw [ih]
            simp only [List.length_cons, List.take_succ_cons, Nat.add_le_add_iff_right, mem_deriv]
            refine and_congr_right fun _ => and_congr_right fun _ => ⟨fun h m hm hle => ?_, ?_⟩
            · simpa using h (m + 1) (by omega) (by omega)
            · intro h m hm hle
              cases m with
              | zero => omega
              | succ m => simpa using h m (by omega) (by omega)
          rw [hsome]
          cases (r.deriv a).longest w <;> simp

end Derivatives

end Regex

end Infra
