import Infra.Config.Scans

/-!
# The end of a file

The scanner passes over every part of a file but one: a comment that the end of
the file cuts off has no newline, and the loop that skips it never returns. So
the tokens of a file come to an end just when each comment has its newline, where
a number sign inside a string starts no comment.
-/

namespace Infra

namespace Config

open Infra.Ascii Infra.Scanning

variable {F : Type} {ft : FloatText F} {s w rest : List UInt8} {n : ℕ} {a : Action F}

/-- Every comment of the text has its newline. A quote that closes no string is a
character like any other. -/
inductive CommentsClosed : List UInt8 → Prop
  | nil : CommentsClosed []
  | comment {pre rest : List UInt8} (hpre : byte '\n' ∉ pre) (h : CommentsClosed rest) :
      CommentsClosed (byte '#' :: (pre ++ byte '\n' :: rest))
  | string {s rest : List UInt8} (hclose : closeQuote s = some rest) (h : CommentsClosed rest) :
      CommentsClosed (byte '"' :: s)
  | quote {s : List UInt8} (hclose : closeQuote s = none) (h : CommentsClosed s) :
      CommentsClosed (byte '"' :: s)
  | other {c : UInt8} {s : List UInt8} (hhash : c ≠ byte '#') (hquote : c ≠ byte '"')
      (h : CommentsClosed s) : CommentsClosed (c :: s)

namespace CommentsClosed

theorem other_iff {c : UInt8} (hhash : c ≠ byte '#') (hquote : c ≠ byte '"') :
    CommentsClosed (c :: s) ↔ CommentsClosed s := by
  constructor
  · intro h
    cases h with
    | comment => exact absurd rfl hhash
    | string => exact absurd rfl hquote
    | quote => exact absurd rfl hquote
    | other _ _ h => exact h
  · exact .other hhash hquote

theorem append_iff (hw : ∀ c ∈ w, c ≠ byte '#' ∧ c ≠ byte '"') :
    CommentsClosed (w ++ rest) ↔ CommentsClosed rest := by
  induction w with
  | nil => rfl
  | cons c w ih =>
      rw [List.forall_mem_cons] at hw
      rw [List.cons_append, other_iff hw.1.1 hw.1.2, ih hw.2]

theorem string_iff (hclose : closeQuote s = some rest) :
    CommentsClosed (byte '"' :: s) ↔ CommentsClosed rest := by
  constructor
  · intro h
    cases h with
    | string hclose' h =>
        rw [hclose, Option.some.injEq] at hclose'
        exact hclose' ▸ h
    | quote hclose' => rw [hclose] at hclose'; cases hclose'
    | other _ hquote => exact absurd rfl hquote
  · exact .string hclose

theorem quote_iff (hclose : closeQuote s = none) :
    CommentsClosed (byte '"' :: s) ↔ CommentsClosed s := by
  constructor
  · intro h
    cases h with
    | string hclose' => rw [hclose] at hclose'; cases hclose'
    | quote _ h => exact h
    | other _ hquote => exact absurd rfl hquote
  · exact .quote hclose

theorem exists_newline (h : CommentsClosed (byte '#' :: s)) :
    ∃ pre rest, s = pre ++ byte '\n' :: rest ∧ byte '\n' ∉ pre ∧ CommentsClosed rest := by
  generalize hs : byte '#' :: s = s' at h
  cases h with
  | nil => cases hs
  | comment hpre h =>
      cases hs
      exact ⟨_, _, rfl, hpre, h⟩
  | string => exact absurd (List.cons.inj hs).1 (by decide)
  | quote => exact absurd (List.cons.inj hs).1 (by decide)
  | other hhash => exact absurd (List.cons.inj hs).1.symm hhash

end CommentsClosed

/-! ## What a match leaves -/

/-- A quote that closes no string is matched alone. -/
theorem munch_quote (hclose : closeQuote s = none) :
    munch (rules ft) (byte '"' :: s) = some (1, .skip) := by
  have hfirst : firstMatch (rules ft) [byte '"'] = some .skip := rfl
  refine munch_append (w := [byte '"']) (by simp) hfirst fun p hp v hv hpre hmem => ?_
  obtain ⟨d, v, rfl⟩ := List.exists_cons_of_ne_nil hv
  rcases long_match hp hmem (by simp) with ⟨-, hhead⟩ | hstr | hall
  · exact absurd (hhead (byte '"') (by simp)) (by decide)
  · obtain ⟨body, hb, heq⟩ := mem_stringLiteral.mp hstr
    obtain ⟨rest, rfl⟩ := hpre
    have hbody : d :: v = body ++ [byte '"'] := (List.cons.inj heq).2
    have hsome : closeQuote (d :: v ++ rest) = some rest :=
      closeQuote_eq_some.mpr ⟨body, hb, by simp [hbody]⟩
    rw [hsome] at hclose
    cases hclose
  · exact absurd (hall (byte '"') (by simp)) (by decide)

/-- The comment rule matches the number sign. -/
theorem eq_hash_of_comment (h : munch (rules ft) s = some (n, .comment)) :
    n = 1 ∧ ∃ s', s = byte '#' :: s' := by
  obtain ⟨hpos, hle, hfirst, -⟩ := munch_eq_some.mp h
  obtain ⟨pre, r, post, hrules, hmem, -⟩ := firstMatch_eq_some.mp hfirst
  have hr : (r, Action.comment) ∈ rules ft := by simp [hrules]
  obtain rfl : r = .str (bytes "#") := by simpa [rules] using hr
  have htake : s.take n = [byte '#'] := Regex.mem_str.mp hmem
  obtain ⟨c, s, rfl⟩ := List.exists_cons_of_ne_nil (l := s) (by
    rintro rfl
    simp at htake)
  have hlen := congrArg List.length htake
  simp only [List.length_take, List.length_singleton, min_eq_left hle] at hlen
  subst hlen
  rw [List.take_succ_cons, List.take_zero, List.singleton_inj] at htake
  exact ⟨rfl, s, by rw [htake]⟩

theorem munch_hash : munch (rules ft) (byte '#' :: s) = some (1, .comment) :=
  munch_single (by decide) (by decide) (by decide) rfl

/-- What is matched at a character other than a quote or a number sign has neither
of them. -/
theorem plain_of_munch {c : UInt8} (hhash : c ≠ byte '#') (hquote : c ≠ byte '"')
    (h : munch (rules ft) (c :: s) = some (n, a)) :
    ∀ x ∈ (c :: s).take n, x ≠ byte '#' ∧ x ≠ byte '"' := by
  obtain ⟨hpos, hle, hfirst, -⟩ := munch_eq_some.mp h
  obtain ⟨p, hp, hmem⟩ := firstMatch_isSome.mp (by rw [hfirst]; rfl)
  obtain ⟨m, rfl⟩ : ∃ m, n = m + 1 := ⟨n - 1, by omega⟩
  have hplain : ∀ x, isWordChar x ∨ isSpace x → x ≠ byte '#' ∧ x ≠ byte '"' := by
    rintro x hx
    constructor
    · rintro rfl
      exact absurd hx (by decide)
    · rintro rfl
      exact absurd hx (by decide)
  cases m with
  | zero => simp [hhash, hquote]
  | succ m =>
      rcases long_match hp hmem (by rw [List.length_take, min_eq_left hle]; omega) with
        ⟨hall, -⟩ | hstr | hall
      · exact fun x hx => hplain x (Or.inl (hall x hx))
      · obtain ⟨body, -, heq⟩ := mem_stringLiteral.mp hstr
        exact absurd (List.cons.inj heq).1 hquote
      · exact fun x hx => hplain x (Or.inr (hall x hx))

/-- A match that is no comment keeps the question open for what it leaves. -/
theorem commentsClosed_drop (h : munch (rules ft) s = some (n, a)) (ha : a ≠ .comment) :
    CommentsClosed (s.drop n) ↔ CommentsClosed s := by
  obtain ⟨c, s, rfl, -⟩ := exists_cons_of_munch h
  by_cases hhash : c = byte '#'
  · subst hhash
    rw [munch_hash] at h
    cases h
    exact absurd rfl ha
  by_cases hquote : c = byte '"'
  · subst hquote
    cases hclose : closeQuote s with
    | none =>
        rw [munch_quote hclose] at h
        cases h
        exact (CommentsClosed.quote_iff hclose).symm
    | some rest =>
        obtain ⟨body, hb, rfl⟩ := closeQuote_eq_some.mp hclose
        rw [munch_string hb (firstMatch_string hb)] at h
        cases h
        have hdrop : (byte '"' :: (body ++ byte '"' :: rest)).drop (body.length + 2) = rest := by
          rw [List.drop_succ_cons, ← List.singleton_append, ← List.append_assoc]
          exact List.drop_left' (by simp)
        rw [hdrop, CommentsClosed.string_iff hclose]
  · rw [← CommentsClosed.append_iff (plain_of_munch hhash hquote h), List.take_append_drop]

/-! ## Which files come to an end -/

theorem Scans.commentsClosed {ts : List (Token F)} (h : Scans ft s ts) : CommentsClosed s := by
  induction h with
  | eof => exact .nil
  | token hmunch _ ih => exact (commentsClosed_drop hmunch (by simp)).mp ih
  | skip hmunch _ ih => exact (commentsClosed_drop hmunch (by simp)).mp ih
  | comment hmunch hdrop hpre _ ih =>
      obtain ⟨rfl, s, rfl⟩ := eq_hash_of_comment hmunch
      rw [List.drop_one, List.tail_cons] at hdrop
      exact hdrop ▸ .comment hpre ih

theorem CommentsClosed.scans (h : CommentsClosed s) : ∃ ts, Scans ft s ts := by
  induction hlen : s.length using Nat.strong_induction_on generalizing s with
  | _ len ih =>
      subst hlen
      cases hs : s with
      | nil => exact ⟨[], .eof⟩
      | cons c s' =>
          rw [← hs]
          have hsome : munch (rules ft) s ≠ none := munch_ne_none (by simp [hs])
          obtain ⟨⟨n, a⟩, hmunch⟩ := Option.ne_none_iff_exists'.mp hsome
          obtain ⟨-, -, -, hlt⟩ := exists_cons_of_munch hmunch
          cases a with
          | comment =>
              obtain ⟨rfl, s, rfl⟩ := eq_hash_of_comment hmunch
              obtain ⟨pre, rest, rfl, hpre, hrest⟩ := h.exists_newline
              have hrest := ih _ (by simp; omega) hrest rfl
              exact hrest.imp fun ts hts => .comment hmunch (by simp) hpre hts
          | token value =>
              have hdrop := (commentsClosed_drop hmunch (by simp)).mpr h
              obtain ⟨ts, hts⟩ := ih _ hlt hdrop rfl
              exact ⟨_, .token hmunch hts⟩
          | skip =>
              have hdrop := (commentsClosed_drop hmunch (by simp)).mpr h
              exact (ih _ hlt hdrop rfl).imp fun ts hts => .skip hmunch hts

/-- A file that comes to an end is accepted or refused. -/
theorem Scans.exists_parseConfig {ts : List (Token F)} (h : Scans ft s ts) :
    ∃ fuel ret cfg, Config.parseConfig ft fuel (some s) = some (ret, cfg) ∧
      (ret = 0 ∨ ret = -1) := by
  refine ⟨s.length + 2, ?_⟩
  have hparse := h.parseConfig (Nat.lt_succ_self _)
  cases haccept : Parser.start.accept ts with
  | some cfg =>
      rw [haccept] at hparse
      exact ⟨0, cfg, hparse, Or.inl rfl⟩
  | none =>
      rw [haccept] at hparse
      obtain ⟨cfg, hparse⟩ := hparse
      exact ⟨-1, cfg, hparse, Or.inr rfl⟩

/-- The loop over the tokens of a file ends, and the parse of it returns, if and
only if every comment has its newline. -/
theorem reading_ends_iff (ft : FloatText F) (file : List UInt8) :
    ((∃ fuel ts, tokens ft fuel file = some ts) ∧
      ∃ fuel ret cfg, parseConfig ft fuel (some file) = some (ret, cfg) ∧ (ret = 0 ∨ ret = -1)) ↔
      CommentsClosed file := by
  constructor
  · rintro ⟨⟨fuel, ts, htokens⟩, -⟩
    exact (scans_of_tokens htokens).commentsClosed
  · intro h
    obtain ⟨ts, hscan⟩ : ∃ ts, Scans ft file ts := h.scans
    exact ⟨⟨_, ts, hscan.tokens (Nat.lt_succ_self _)⟩, hscan.exists_parseConfig⟩

/-- A parse also returns when the parser refuses a token before it comes to a comment
without newline. -/
theorem parseConfig_ends_iff (ft : FloatText F) (file : List UInt8) :
    (∃ fuel ret cfg, parseConfig ft fuel (some file) = some (ret, cfg) ∧ (ret = 0 ∨ ret = -1)) ↔
      CommentsClosed file ∨
        ∃ ts, BeginsWith ft file ts ∧ ts.foldlM Parser.step Parser.start = none := by
  constructor
  · rintro ⟨fuel, ret, cfg, hparse, -⟩
    obtain ⟨r, hyy, -⟩ := Option.bind_eq_some_iff.mp hparse
    exact (exists_of_yyparse hyy).imp_left fun ⟨ts, hscan⟩ => hscan.commentsClosed
  · rintro (hclosed | ⟨ts, hbegins, hrun⟩)
    · obtain ⟨ts, hscan⟩ : ∃ ts, Scans ft file ts := hclosed.scans
      exact hscan.exists_parseConfig
    · obtain ⟨fuel, q, hyy⟩ := hbegins.yyparse_refuses hrun
      refine ⟨fuel, -1, freeConfig q.cfg, ?_, Or.inr rfl⟩
      rw [Parser.start] at hyy
      simp [parseConfig, hyy]

/-- A number sign at the end of a file is a comment without newline. -/
theorem reading_hangs_on_hash :
    (¬ ∃ fuel ts, tokens FloatText.zero fuel (bytes "#") = some ts) ∧
      ¬ ∃ fuel ret cfg, parseConfig FloatText.zero fuel (some (bytes "#")) = some (ret, cfg) ∧
        (ret = 0 ∨ ret = -1) := by
  have hopen : ¬ CommentsClosed (bytes "#") := by
    intro h
    obtain ⟨pre, rest, hnewline, -⟩ := h.exists_newline
    simp at hnewline
  refine ⟨fun ⟨fuel, ts, htokens⟩ => hopen (scans_of_tokens htokens).commentsClosed, ?_⟩
  rw [parseConfig_ends_iff]
  rintro (hclosed | ⟨ts, hbegins, hrun⟩)
  · exact hopen hclosed
  -- the scanner does not come out of the comment with a first token
  cases hbegins with
  | nil => cases hrun
  | @cons fuel _ s' t ts hlex _ =>
      cases fuel with
      | zero => cases hlex
      | succ fuel =>
          obtain ⟨rest, hcomment, -⟩ := Option.bind_eq_some_iff.mp hlex
          obtain ⟨pre, hnewline, -⟩ := exists_newline_of_comment hcomment
          simp at hnewline

end Config

end Infra
