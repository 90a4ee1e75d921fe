import Infra.Config.Parser
import Infra.Config.Tokens

/-!
# What a file is read as

`Scans` relates a file to its tokens with no count of rounds: it follows the
matches from the front of the file to its end. The loops of the scanner and of
the parser return, with enough rounds, just when there is such a derivation, so
the questions about them become questions about the tokens of a file.
-/

namespace Infra

namespace Config

open Infra.Ascii Infra.Scanning

variable {F : Type} {ft : FloatText F} {s rest : List UInt8} {t : Token F} {ts : List (Token F)}
  {fuel n : ℕ} {p : Parser F} {cfg : ConfigCB F}

/-- The tokens of a file. -/
inductive Scans (ft : FloatText F) : List UInt8 → List (Token F) → Prop
  | eof : Scans ft [] []
  | token {s : List UInt8} {n : ℕ} {value : List UInt8 → Token F} {ts : List (Token F)}
      (hmunch : munch (rules ft) s = some (n, .token value)) (hrest : Scans ft (s.drop n) ts) :
      Scans ft s (value (s.take n) :: ts)
  | skip {s : List UInt8} {n : ℕ} {ts : List (Token F)}
      (hmunch : munch (rules ft) s = some (n, .skip)) (hrest : Scans ft (s.drop n) ts) :
      Scans ft s ts
  | comment {s pre rest : List UInt8} {n : ℕ} {ts : List (Token F)}
      (hmunch : munch (rules ft) s = some (n, .comment))
      (hdrop : s.drop n = pre ++ byte '\n' :: rest) (hpre : byte '\n' ∉ pre)
      (hrest : Scans ft rest ts) : Scans ft s ts

/-- The file begins with the tokens. -/
inductive BeginsWith (ft : FloatText F) : List UInt8 → List (Token F) → Prop where
  | nil {s : List UInt8} : BeginsWith ft s []
  | cons {fuel : ℕ} {s s' : List UInt8} {t : Token F} {ts : List (Token F)}
      (hlex : yylex ft fuel s = some (some t, s')) (h : BeginsWith ft s' ts) :
      BeginsWith ft s (t :: ts)

/-! ## The loop of a comment -/

theorem comment_of_newline {pre : List UInt8} (hpre : byte '\n' ∉ pre)
    (hfuel : pre.length < fuel) : comment fuel (pre ++ byte '\n' :: rest) = some rest := by
  induction pre generalizing fuel with
  | nil =>
      cases fuel with
      | zero => simp at hfuel
      | succ fuel => simp [comment]
  | cons c pre ih =>
      rw [List.mem_cons, not_or] at hpre
      cases fuel with
      | zero => simp at hfuel
      | succ fuel =>
          rw [List.cons_append, comment, if_neg (Ne.symm hpre.1)]
          exact ih hpre.2 (by simpa using hfuel)

theorem exists_newline_of_comment (h : comment fuel s = some rest) :
    ∃ pre, s = pre ++ byte '\n' :: rest ∧ byte '\n' ∉ pre := by
  induction fuel generalizing s with
  | zero => simp [comment] at h
  | succ fuel ih =>
      cases s with
      | nil =>
          obtain ⟨pre, hpre, -⟩ := ih h
          simp at hpre
      | cons c s =>
          rw [comment] at h
          split at h
          · next hc =>
            cases h
            exact ⟨[], by simp [hc], by simp⟩
          · next hc =>
            obtain ⟨pre, rfl, hpre⟩ := ih h
            exact ⟨c :: pre, rfl, by simp [hpre, Ne.symm hc]⟩

/-! ## The scanner -/

/-- Every character is matched by the rule for white space or by that for
unknown characters. -/
theorem munch_ne_none (hs : s ≠ []) : munch (rules ft) s ≠ none := by
  obtain ⟨c, s, rfl⟩ := List.exists_cons_of_ne_nil hs
  intro hnone
  have hspec := munch_spec (rules ft) (c :: s)
  rw [hnone] at hspec
  by_cases hc : c = byte '\n'
  · refine hspec (.plus (oneOf " \t\n"), .skip) (by simp [rules]) 1 one_pos (by simp) ?_
    exact Regex.mem_plus_cls.mpr ⟨by simp, by simp [hc]; decide⟩
  · refine hspec (dot, .skip) (by simp [rules]) 1 one_pos (by simp) ?_
    exact ⟨c, by simpa using hc, by simp⟩

/-- A match takes a part of the text that is not empty. -/
theorem exists_cons_of_munch {a : Action F} (h : munch (rules ft) s = some (n, a)) :
    ∃ c s', s = c :: s' ∧ (s.drop n).length < s.length := by
  obtain ⟨hpos, hle, -⟩ := munch_eq_some.mp h
  cases s with
  | nil =>
      rw [List.length_nil] at hle
      omega
  | cons c s =>
      refine ⟨c, s, rfl, ?_⟩
      rw [List.length_drop]
      omega

/-- With so many rounds `yylex` returns the first of the tokens and leaves a file
with the others. -/
def LexesFirst (ft : FloatText F) (fuel : ℕ) (s : List UInt8) : List (Token F) → Prop
  | [] => yylex ft fuel s = some (none, [])
  | t :: ts => ∃ s', yylex ft fuel s = some (some t, s') ∧ Scans ft s' ts ∧ s'.length < s.length

theorem LexesFirst.skip {s' : List UInt8} (h : LexesFirst ft fuel s' ts)
    (hstep : yylex ft (fuel + 1) s = yylex ft fuel s') (hlt : s'.length < s.length) :
    LexesFirst ft (fuel + 1) s ts := by
  cases ts with
  | nil => exact hstep.trans h
  | cons t ts =>
      obtain ⟨s'', hlex, hscan, hlen⟩ := h
      exact ⟨s'', hstep.trans hlex, hscan, hlen.trans hlt⟩

theorem Scans.lexesFirst (h : Scans ft s ts) (hfuel : s.length < fuel) :
    LexesFirst ft fuel s ts := by
  induction h generalizing fuel with
  | eof =>
      cases fuel with
      | zero => simp at hfuel
      | succ fuel => exact rfl
  | @token s n value ts hmunch hrest ih =>
      obtain ⟨c, s, rfl, hlt⟩ := exists_cons_of_munch hmunch
      cases fuel with
      | zero => simp at hfuel
      | succ fuel => exact ⟨_, by simp only [yylex, hmunch], hrest, hlt⟩
  | @skip s n ts hmunch hrest ih =>
      obtain ⟨c, s, rfl, hlt⟩ := exists_cons_of_munch hmunch
      cases fuel with
      | zero => simp at hfuel
      | succ fuel => exact (ih (by omega)).skip (by simp only [yylex, hmunch]) hlt
  | @comment s pre rest n ts hmunch hdrop hpre hrest ih =>
      obtain ⟨c, s, rfl, hlt⟩ := exists_cons_of_munch hmunch
      cases fuel with
      | zero => simp at hfuel
      | succ fuel =>
          rw [hdrop, List.length_append, List.length_cons] at hlt
          have hcomment : Config.comment fuel ((c :: s).drop n) = some rest := by
            rw [hdrop, comment_of_newline hpre (by omega)]
          exact (ih (by omega)).skip (by simp [yylex, hmunch, hcomment]) (by omega)

/-- The scanner stops at the end of the file only. -/
theorem eq_nil_of_yylex (h : yylex ft fuel s = some (none, rest)) : rest = [] := by
  induction fuel generalizing s with
  | zero => simp [yylex] at h
  | succ fuel ih =>
      cases s with
      | nil =>
          cases h
          rfl
      | cons c s =>
          rw [yylex] at h
          split at h
          · exact ih h
          · obtain ⟨s', -, h⟩ := Option.bind_eq_some_iff.mp h
            exact ih h
          · simp at h
          · exact ih h

/-- The token that `yylex` returns is the first one. -/
theorem scans_of_yylex {t : Option (Token F)} (h : yylex ft fuel s = some (t, rest))
    (hrest : Scans ft rest ts) : Scans ft s (t.toList ++ ts) := by
  induction fuel generalizing s with
  | zero => simp [yylex] at h
  | succ fuel ih =>
      cases s with
      | nil =>
          cases h
          exact hrest
      | cons c s =>
          rw [yylex] at h
          split at h
          · next hmunch => exact absurd hmunch (munch_ne_none (by simp))
          · next hmunch =>
            obtain ⟨s', hcomment, h⟩ := Option.bind_eq_some_iff.mp h
            obtain ⟨pre, hdrop, hpre⟩ := exists_newline_of_comment hcomment
            exact .comment hmunch hdrop hpre (ih h)
          · next hmunch =>
            cases h
            exact .token hmunch hrest
          · next hmunch => exact .skip hmunch (ih h)

/-- With enough rounds the loop over the tokens returns those of the file. -/
theorem Scans.tokens (h : Scans ft s ts) (hfuel : s.length + 1 < fuel) :
    tokens ft fuel s = some ts := by
  induction fuel generalizing s ts with
  | zero => simp at hfuel
  | succ fuel ih =>
      have hlex : LexesFirst ft fuel s ts := h.lexesFirst (by omega)
      cases ts with
      | nil =>
          have hlex : yylex ft fuel s = some (none, []) := hlex
          simp [Config.tokens, hlex]
      | cons t ts =>
          obtain ⟨s', hlex, hscan, hlt⟩ := hlex
          simp [Config.tokens, hlex, ih hscan (by omega)]

theorem scans_of_tokens (h : tokens ft fuel s = some ts) : Scans ft s ts := by
  induction fuel generalizing s ts with
  | zero => simp [tokens] at h
  | succ fuel ih =>
      obtain ⟨⟨t, s'⟩, hlex, h⟩ := Option.bind_eq_some_iff.mp h
      cases t with
      | none =>
          cases h
          obtain rfl := eq_nil_of_yylex hlex
          exact scans_of_yylex hlex .eof
      | some t =>
          obtain ⟨ts', htokens, h⟩ := Option.bind_eq_some_iff.mp h
          cases h
          exact scans_of_yylex hlex (ih htokens)

/-- The tokens of a file are those that the loop over them returns. -/
theorem scans_iff : Scans ft s ts ↔ ∃ fuel, tokens ft fuel s = some ts :=
  ⟨fun h => ⟨_, h.tokens (Nat.lt_succ_self _)⟩, fun ⟨_, h⟩ => scans_of_tokens h⟩

theorem Scans.unique {ts' : List (Token F)} (h : Scans ft s ts) (h' : Scans ft s ts') :
    ts = ts' := by
  have htokens := h.tokens (Nat.lt_succ_self _)
  rw [h'.tokens (Nat.lt_succ_self _)] at htokens
  exact (Option.some.inj htokens).symm

/-! ## More rounds -/

section Rounds

variable {fuel' : ℕ}

/-- More rounds do not change what a loop returns. -/
theorem comment_mono (hle : fuel ≤ fuel') (h : comment fuel s = some rest) :
    comment fuel' s = some rest := by
  obtain ⟨pre, rfl, hpre⟩ := exists_newline_of_comment h
  induction fuel generalizing fuel' pre with
  | zero => cases h
  | succ fuel ih =>
      obtain ⟨fuel', rfl⟩ : ∃ m, fuel' = m + 1 := ⟨fuel' - 1, by omega⟩
      cases pre with
      | nil => simp [comment]
      | cons c pre =>
          rw [List.mem_cons, not_or] at hpre
          rw [List.cons_append, comment, if_neg (Ne.symm hpre.1)] at h ⊢
          exact ih (by omega) pre hpre.2 h

theorem yylex_mono {t : Option (Token F)} (hle : fuel ≤ fuel')
    (h : yylex ft fuel s = some (t, rest)) : yylex ft fuel' s = some (t, rest) := by
  induction fuel generalizing fuel' s with
  | zero => cases h
  | succ fuel ih =>
      obtain ⟨fuel', rfl⟩ : ∃ m, fuel' = m + 1 := ⟨fuel' - 1, by omega⟩
      cases s with
      | nil => exact h
      | cons c s =>
          rw [yylex] at h ⊢
          split at h
          · exact ih (by omega) h
          · obtain ⟨s', hcomment, h⟩ := Option.bind_eq_some_iff.mp h
            exact Option.bind_eq_some_iff.mpr
              ⟨s', comment_mono (by omega) hcomment, ih (by omega) h⟩
          · exact h
          · exact ih (by omega) h

theorem yyparse_mono {r : Parser F × Bool} (hle : fuel ≤ fuel')
    (h : yyparse ft fuel p s = some r) : yyparse ft fuel' p s = some r := by
  induction fuel generalizing fuel' s p with
  | zero => cases h
  | succ fuel ih =>
      obtain ⟨fuel', rfl⟩ : ∃ m, fuel' = m + 1 := ⟨fuel' - 1, by omega⟩
      obtain ⟨⟨t, s'⟩, hlex, h⟩ := Option.bind_eq_some_iff.mp h
      refine Option.bind_eq_some_iff.mpr ⟨(t, s'), yylex_mono (by omega) hlex, ?_⟩
      cases t with
      | none => exact h
      | some t =>
          cases hstep : p.step t with
          | none => simpa [hstep] using h
          | some q =>
              simp only [hstep] at h ⊢
              exact ih (by omega) h

theorem parseConfig_mono {file : Option (List UInt8)} {r : ℤ × ConfigCB F} (hle : fuel ≤ fuel')
    (h : parseConfig ft fuel file = some r) : parseConfig ft fuel' file = some r := by
  cases file with
  | none => exact h
  | some s =>
      obtain ⟨q, hyy, h⟩ := Option.bind_eq_some_iff.mp h
      exact Option.bind_eq_some_iff.mpr ⟨q, yyparse_mono hle hyy, h⟩

end Rounds

/-! ## The parser -/

/-- The parser at the start of a file. -/
def Parser.start : Parser F := { expect := .expression, cfg := initConfig, gList := [] }

/-- The configuration that the parser makes of some tokens, when it accepts
them. -/
def Parser.accept : Parser F → List (Token F) → Option (ConfigCB F)
  | p, [] => if p.expect = .expression then some p.cfg else none
  | p, t :: ts => do
      let p ← p.step t
      p.accept ts

/-- What one token can do. -/
theorem Parser.step_cases {q : Parser F} (h : p.step t = some q) :
    (∃ name, p.expect = .expression ∧ t = .parameter name ∧ q = { p with expect := .assign name }) ∨
    (∃ name, p.expect = .assign name ∧ t = .assignment ∧ q = { p with expect := .value name }) ∨
    (∃ name, p.expect = .value name ∧ t = .listOpen ∧
      q = { p with expect := .element name, gList := [] }) ∨
    (∃ name e, p.expect = .value name ∧ unitValue t = some e ∧
      q = { p with expect := .expression
                   cfg := addConfigParam p.cfg name (allocPValue e.ptype e.value) }) ∨
    (∃ name e, p.expect = .element name ∧ unitValue t = some e ∧
      q = { p with expect := .separator name, gList := p.gList ++ [e] }) ∨
    (∃ name, p.expect = .separator name ∧ t = .comma ∧ q = { p with expect := .element name }) ∨
    ∃ name, p.expect = .separator name ∧ t = .listClose ∧
      q = { expect := .expression
            cfg := addConfigParam p.cfg name (allocPValueList p.gList)
            gList := [] } := by
  unfold Parser.step at h
  split at h
  · next name hp => cases h; exact Or.inl ⟨name, hp, rfl, rfl⟩
  · next name hp => cases h; exact Or.inr (Or.inl ⟨name, hp, rfl, rfl⟩)
  · next name hp => cases h; exact Or.inr (Or.inr (Or.inl ⟨name, hp, rfl, rfl⟩))
  · next t name hp hne =>
    obtain ⟨e, he, hq⟩ := Option.bind_eq_some_iff.mp h
    obtain rfl := Option.some.inj hq
    exact Or.inr (Or.inr (Or.inr (Or.inl ⟨name, e, hp, he, rfl⟩)))
  · next t name hp =>
    obtain ⟨e, he, hq⟩ := Option.bind_eq_some_iff.mp h
    obtain rfl := Option.some.inj hq
    exact Or.inr (Or.inr (Or.inr (Or.inr (Or.inl ⟨name, e, hp, he, rfl⟩))))
  · next name hp =>
    cases h
    exact Or.inr (Or.inr (Or.inr (Or.inr (Or.inr (Or.inl ⟨name, hp, rfl, rfl⟩)))))
  · next name hp =>
    cases h
    exact Or.inr (Or.inr (Or.inr (Or.inr (Or.inr (Or.inr ⟨name, hp, rfl, rfl⟩)))))
  · cases h

/-- With enough rounds `yyparse` accepts the tokens of the file or refuses
them. -/
theorem Scans.yyparse (h : Scans ft s ts) (hfuel : s.length + 1 < fuel) :
    (yyparse ft fuel p s).map (fun r => if r.2 then some r.1.cfg else none) =
      some (p.accept ts) := by
  induction fuel generalizing s ts p with
  | zero => simp at hfuel
  | succ fuel ih =>
      have hlex : LexesFirst ft fuel s ts := h.lexesFirst (by omega)
      cases ts with
      | nil =>
          have hlex : yylex ft fuel s = some (none, []) := hlex
          simp [Config.yyparse, hlex, Parser.accept]
      | cons t ts =>
          obtain ⟨s', hlex, hscan, hlt⟩ := hlex
          cases hstep : p.step t with
          | none => simp [Config.yyparse, hlex, Parser.accept, hstep]
          | some q => simp [Config.yyparse, hlex, Parser.accept, hstep, ih hscan (by omega)]

theorem scans_of_yyparse {q : Parser F} (h : yyparse ft fuel p s = some (q, true)) :
    ∃ ts, Scans ft s ts ∧ p.accept ts = some q.cfg := by
  induction fuel generalizing s p with
  | zero => simp [yyparse] at h
  | succ fuel ih =>
      obtain ⟨⟨t, s'⟩, hlex, h⟩ := Option.bind_eq_some_iff.mp h
      cases t with
      | none =>
          simp only [Option.some.injEq, Prod.mk.injEq, decide_eq_true_eq] at h
          obtain ⟨rfl, hexpect⟩ := h
          obtain rfl := eq_nil_of_yylex hlex
          exact ⟨[], scans_of_yylex hlex .eof, by simp [Parser.accept, hexpect]⟩
      | some t =>
          simp only at h
          split at h
          · simp at h
          · next q' hstep =>
            obtain ⟨ts, hscan, haccept⟩ := ih h
            exact ⟨t :: ts, scans_of_yylex hlex hscan, by simp [Parser.accept, hstep, haccept]⟩

/-- When the parser stops it has read the file to its end, or tokens that it refuses. -/
theorem exists_of_yyparse {r : Parser F × Bool} (h : yyparse ft fuel p s = some r) :
    (∃ ts, Scans ft s ts) ∨ ∃ ts, BeginsWith ft s ts ∧ ts.foldlM Parser.step p = none := by
  induction fuel generalizing s p with
  | zero => cases h
  | succ fuel ih =>
      obtain ⟨⟨t, s'⟩, hlex, h⟩ := Option.bind_eq_some_iff.mp h
      cases t with
      | none =>
          obtain rfl := eq_nil_of_yylex hlex
          exact .inl ⟨_, scans_of_yylex hlex .eof⟩
      | some t =>
          cases hstep : p.step t with
          | none => exact .inr ⟨[t], .cons hlex .nil, by simp [hstep]⟩
          | some p' =>
              simp only [hstep] at h
              rcases ih h with ⟨ts, hscan⟩ | ⟨ts, hbegins, hrun⟩
              · exact .inl ⟨_, scans_of_yylex hlex hscan⟩
              · exact .inr ⟨t :: ts, .cons hlex hbegins, by simp [hstep, hrun]⟩

/-- The parser stops at the first token that it refuses. -/
theorem BeginsWith.yyparse_refuses (h : BeginsWith ft s ts)
    (hrun : ts.foldlM Parser.step p = none) :
    ∃ fuel q, yyparse ft fuel p s = some (q, false) := by
  induction h generalizing p with
  | nil => cases hrun
  | @cons k s s' t ts hlex _ ih =>
      cases hstep : p.step t with
      | none => exact ⟨k + 1, p, by simp [yyparse, hlex, hstep]⟩
      | some p' =>
          rw [List.foldlM_cons, hstep] at hrun
          obtain ⟨fuel, q, hrest⟩ := ih hrun
          refine ⟨max k fuel + 1, q, ?_⟩
          have hlex := yylex_mono (le_max_left k fuel) hlex
          have hrest := yyparse_mono (le_max_right k fuel) hrest
          simp [yyparse, hlex, hstep, hrest]

/-- The file is read as the configuration: `parseConfig` returns 0 with it. -/
def Reads (ft : FloatText F) (file : List UInt8) (cfg : ConfigCB F) : Prop :=
  ∃ N, ∀ fuel, N ≤ fuel → parseConfig ft fuel (some file) = some (0, cfg)

/-- The tokens of a file decide what `parseConfig` returns. -/
theorem Scans.parseConfig (h : Scans ft s ts) (hfuel : s.length + 1 < fuel) :
    match Parser.start.accept ts with
    | some cfg => parseConfig ft fuel (some s) = some (0, cfg)
    | none => ∃ cfg, Config.parseConfig ft fuel (some s) = some (-1, cfg) := by
  have hparse := h.yyparse (p := .start) hfuel
  obtain ⟨⟨q, ok⟩, hyy, hq⟩ := Option.map_eq_some_iff.mp hparse
  have hrun : Config.parseConfig ft fuel (some s) =
      if ok then some (0, q.cfg) else some (-1, freeConfig q.cfg) := by
    have hyy : Config.yyparse ft fuel { expect := .expression, cfg := initConfig, gList := [] } s =
        some (q, ok) := hyy
    simp [Config.parseConfig, hyy]
  rw [← hq]
  cases ok with
  | true => simpa using hrun
  | false => exact ⟨_, by simpa using hrun⟩

theorem scans_of_parseConfig (h : parseConfig ft fuel (some s) = some (0, cfg)) :
    ∃ ts, Scans ft s ts ∧ Parser.start.accept ts = some cfg := by
  obtain ⟨⟨q, ok⟩, hyy, h⟩ := Option.bind_eq_some_iff.mp h
  cases ok with
  | false => simp at h
  | true =>
      cases h
      exact scans_of_yyparse hyy

/-- A file is read as a configuration when the parser makes it of the tokens. -/
theorem reads_iff : Reads ft s cfg ↔ ∃ ts, Scans ft s ts ∧ Parser.start.accept ts = some cfg := by
  constructor
  · rintro ⟨N, h⟩
    exact scans_of_parseConfig (h N le_rfl)
  · rintro ⟨ts, hscan, haccept⟩
    refine ⟨s.length + 2, fun fuel hfuel => ?_⟩
    have hparse := hscan.parseConfig (show s.length + 1 < fuel by omega)
    rwa [haccept] at hparse

/-- What the tokens of a file are made into is what the file is read as. -/
theorem Scans.reads_iff (h : Scans ft s ts) :
    Reads ft s cfg ↔ Parser.start.accept ts = some cfg := by
  rw [Config.reads_iff]
  constructor
  · rintro ⟨ts', hscan, haccept⟩
    rwa [h.unique hscan]
  · exact fun haccept => ⟨ts, h, haccept⟩

end Config

end Infra
