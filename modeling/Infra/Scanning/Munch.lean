import Infra.Scanning.Regex

/-!
# Longest match, first rule

A scanner is a list of rules, each an expression with what to do on a match. At
each position it takes the longest match of any rule, and among the rules that
match so much the first one. A match is never empty.
-/

namespace Infra

namespace Scanning

section Definitions

variable {α β : Type}

/-- The first rule that matches the whole word. -/
def firstMatch (rules : List (Regex α × β)) (w : List α) : Option β :=
  (rules.find? fun p => p.1.accepts w).map Prod.snd

/-- The longest match at the front of a word, with the first rule that has it. -/
def munch : List (Regex α × β) → List α → Option (ℕ × β)
  | [], _ => none
  | (r, b) :: rules, w =>
      match r.longest w, munch rules w with
      | some n, some (m, c) => if 0 < n ∧ m ≤ n then some (n, b) else some (m, c)
      | some n, none => if 0 < n then some (n, b) else none
      | none, x => x

/-- No rule matches more than `n` characters at the front of a word. -/
def NoLonger (rules : List (Regex α × β)) (n : ℕ) (w : List α) : Prop :=
  ∀ p ∈ rules, ∀ m, n < m → m ≤ w.length → w.take m ∉ p.1.lang

end Definitions

section Facts

variable {α β : Type} {rules : List (Regex α × β)} {w : List α} {n : ℕ} {b : β}

theorem firstMatch_cons {r : Regex α} :
    firstMatch ((r, b) :: rules) w = if r.accepts w then some b else firstMatch rules w := by
  unfold firstMatch
  rw [List.find?_cons]
  split <;> simp_all

theorem firstMatch_isSome : (firstMatch rules w).isSome ↔ ∃ p ∈ rules, w ∈ p.1.lang := by
  simp [firstMatch, Regex.accepts_iff]

/-- The rule that is found is in the list and matches, and no earlier one does. -/
theorem firstMatch_eq_some : firstMatch rules w = some b ↔
    ∃ pre r post, rules = pre ++ (r, b) :: post ∧ w ∈ r.lang ∧ ∀ p ∈ pre, w ∉ p.1.lang := by
  simp only [firstMatch, Option.map_eq_some_iff, List.find?_eq_some_iff_append,
    Regex.accepts_iff, Bool.not_eq_eq_eq_not, Bool.not_true]
  constructor
  · rintro ⟨⟨r, b⟩, ⟨hw, pre, post, rfl, hpre⟩, rfl⟩
    exact ⟨pre, r, post, rfl, hw, fun p hp => by
      simpa [← Regex.accepts_iff] using hpre p hp⟩
  · rintro ⟨pre, r, post, rfl, hw, hpre⟩
    exact ⟨(r, b), ⟨hw, pre, post, rfl, fun p hp => by
      simpa [← Regex.accepts_iff] using hpre p hp⟩, rfl⟩

theorem noLonger_cons {p : Regex α × β} : NoLonger (p :: rules) n w ↔
    (∀ m, n < m → m ≤ w.length → w.take m ∉ p.1.lang) ∧ NoLonger rules n w :=
  List.forall_mem_cons

/-- What `munch` finds, and when it finds nothing. -/
theorem munch_spec (rules : List (Regex α × β)) (w : List α) :
    match munch rules w with
    | some (n, b) => 0 < n ∧ n ≤ w.length ∧ firstMatch rules (w.take n) = some b ∧
        NoLonger rules n w
    | none => NoLonger rules 0 w := by
  induction rules with
  | nil => simp [munch, NoLonger]
  | cons p rules ih =>
      obtain ⟨r, b⟩ := p
      rw [munch]
      cases hr : r.longest w with
      | none =>
          rw [Regex.longest_eq_none] at hr
          cases hm : munch rules w with
          | none =>
              rw [hm] at ih
              exact noLonger_cons.mpr ⟨fun m _ hle => hr m hle, ih⟩
          | some q =>
              obtain ⟨m, c⟩ := q
              rw [hm] at ih
              obtain ⟨hpos, hle, hfirst, hmax⟩ := ih
              refine ⟨hpos, hle, ?_, noLonger_cons.mpr ⟨fun m _ hle => hr m hle, hmax⟩⟩
              rw [firstMatch_cons, if_neg (by simpa [Regex.accepts_iff] using hr m hle), hfirst]
      | some n =>
          obtain ⟨hle, hmem, hlong⟩ := Regex.longest_eq_some.mp hr
          cases hm : munch rules w with
          | none =>
              rw [hm] at ih
              by_cases hpos : 0 < n
              · simp only [hpos, if_true]
                refine ⟨trivial, hle, ?_, noLonger_cons.mpr ⟨hlong, fun p hp m hlt hm =>
                  ih p hp m (by omega) hm⟩⟩
                rw [firstMatch_cons, if_pos (Regex.accepts_iff.mpr hmem)]
              · simp only [hpos, if_false]
                obtain rfl : n = 0 := by omega
                exact noLonger_cons.mpr ⟨hlong, ih⟩
          | some q =>
              obtain ⟨m, c⟩ := q
              rw [hm] at ih
              obtain ⟨hpos', hle', hfirst, hmax⟩ := ih
              by_cases h : 0 < n ∧ m ≤ n
              · simp only [h, and_self, if_true]
                refine ⟨trivial, hle, ?_, noLonger_cons.mpr ⟨hlong, fun p hp m' hlt hm' =>
                  hmax p hp m' (by omega) hm'⟩⟩
                rw [firstMatch_cons, if_pos (Regex.accepts_iff.mpr hmem)]
              · simp only [h, if_false]
                have hlt : n < m := by omega
                refine ⟨hpos', hle', ?_, noLonger_cons.mpr ⟨fun m' hlt' hm' =>
                  hlong m' (by omega) hm', hmax⟩⟩
                rw [firstMatch_cons, if_neg (by
                  simpa [Regex.accepts_iff] using hlong m hlt hle'), hfirst]

/-- The longest match with the first rule that has it is the only one. -/
theorem munch_eq_some : munch rules w = some (n, b) ↔
    0 < n ∧ n ≤ w.length ∧ firstMatch rules (w.take n) = some b ∧ NoLonger rules n w := by
  have hspec := munch_spec rules w
  constructor
  · intro h
    rwa [h] at hspec
  · rintro ⟨hpos, hle, hfirst, hmax⟩
    obtain ⟨p, hp, hmem⟩ := firstMatch_isSome.mp (by rw [hfirst]; rfl)
    cases hm : munch rules w with
    | none =>
        rw [hm] at hspec
        exact absurd hmem (hspec p hp n hpos hle)
    | some q =>
        obtain ⟨n', b'⟩ := q
        rw [hm] at hspec
        obtain ⟨-, hle', hfirst', hmax'⟩ := hspec
        obtain ⟨p', hp', hmem'⟩ := firstMatch_isSome.mp (by rw [hfirst']; rfl)
        have hn : n' = n := by
          rcases Nat.lt_trichotomy n' n with hlt | heq | hlt
          · exact absurd hmem (hmax' p hp n hlt hle)
          · exact heq
          · exact absurd hmem' (hmax p' hp' n' hlt hle')
        subst hn
        rw [hfirst'] at hfirst
        rw [Option.some.inj hfirst]

/-- A word in front is the match when no rule matches more. -/
theorem munch_append {rest : List α} (hne : w ≠ []) (hfirst : firstMatch rules w = some b)
    (hmax : ∀ p ∈ rules, ∀ v, v ≠ [] → v <+: rest → w ++ v ∉ p.1.lang) :
    munch rules (w ++ rest) = some (w.length, b) := by
  refine munch_eq_some.mpr ⟨List.length_pos_iff.mpr hne, by simp, by simpa using hfirst, ?_⟩
  intro p hp m hlt hle
  rw [List.take_append, List.take_of_length_le hlt.le]
  refine hmax p hp _ ?_ (List.take_prefix _ _)
  rw [List.length_append] at hle
  rw [Ne, List.take_eq_nil_iff, not_or]
  refine ⟨by omega, ?_⟩
  rintro rfl
  simp only [List.length_nil] at hle
  omega

end Facts

end Scanning

end Infra
