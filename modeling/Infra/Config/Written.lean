import Infra.Config.Domain
import Infra.Config.Writer

/-!
# How a written configuration is scanned

A value is written as one word or one string, a name as a word, and between them
stand white space and single characters, so the scanner splits the text where
the writer joined it. The sign of a number is a character that no rule knows: it
is passed over, and the token is that of the text after it. A name that is one of
the words for a boolean is scanned as that.
-/

namespace Infra

namespace Config

open Infra.Ascii Infra.Scanning

variable {F : Type} {ft : FloatText F} {s w rest text : List UInt8} {t : Token F}
  {ts : List (Token F)} {c : UInt8}

/-! ## Pieces of a text -/

theorem scans_word {value : List UInt8 → Token F} (hne : w ≠ []) (hw : ∀ x ∈ w, isWordChar x)
    (hfirst : firstMatch (rules ft) w = some (.token value)) (hstops : Stops rest)
    (h : Scans ft rest ts) : Scans ft (w ++ rest) (value w :: ts) := by
  have hmunch := munch_word hne hw hstops hfirst
  have hdrop : (w ++ rest).drop w.length = rest := List.drop_left
  have htake : (w ++ rest).take w.length = w := List.take_left
  have hscan := Scans.token hmunch (hdrop.symm ▸ h)
  rwa [htake] at hscan

theorem scans_string {body : List UInt8} (hb : body ∈ stringBody.lang) (h : Scans ft rest ts) :
    Scans ft (byte '"' :: (body ++ byte '"' :: rest))
      (.stringLiteral (literalValue (byte '"' :: (body ++ [byte '"']))) :: ts) := by
  have hmunch : munch (rules ft) (byte '"' :: (body ++ byte '"' :: rest)) = _ :=
    munch_string hb (firstMatch_string hb)
  have hsplit : byte '"' :: (body ++ byte '"' :: rest) =
      (byte '"' :: (body ++ [byte '"'])) ++ rest := by simp
  have hlen : body.length + 2 = (byte '"' :: (body ++ [byte '"'])).length := by simp
  rw [hsplit] at hmunch ⊢
  rw [hlen] at hmunch
  have hdrop : ((byte '"' :: (body ++ [byte '"'])) ++ rest).drop
      (byte '"' :: (body ++ [byte '"'])).length = rest := List.drop_left
  have hscan := Scans.token hmunch (hdrop.symm ▸ h)
  rwa [List.take_left] at hscan

/-- The characters that are matched alone. -/
def IsSingle (c : UInt8) : Prop := ¬ isWordHead c ∧ c ≠ byte '"' ∧ ¬ isSpace c

theorem scans_single {value : List UInt8 → Token F} (hc : IsSingle c)
    (hfirst : firstMatch (rules ft) [c] = some (.token value)) (h : Scans ft rest ts) :
    Scans ft (c :: rest) (value [c] :: ts) :=
  .token (munch_single hc.1 hc.2.1 hc.2.2 hfirst) h

/-- A character that is a token by itself. -/
theorem scans_mark (hc : IsSingle c)
    (hfirst : firstMatch (rules ft) [c] = some (.token fun _ => t)) (h : Scans ft rest ts) :
    Scans ft (c :: rest) (t :: ts) := scans_single hc hfirst h

theorem scans_unknown (hc : IsSingle c) (hfirst : firstMatch (rules ft) [c] = some .skip)
    (h : Scans ft rest ts) : Scans ft (c :: rest) ts :=
  .skip (munch_single hc.1 hc.2.1 hc.2.2 hfirst) h

theorem scans_comment (h : Scans ft rest ts) : Scans ft (byte '#' :: byte '\n' :: rest) ts := by
  have hhash : IsSingle (byte '#') := ⟨by decide, by decide, by decide⟩
  have hmunch : munch (rules ft) (byte '#' :: byte '\n' :: rest) = some (1, .comment) :=
    munch_single hhash.1 hhash.2.1 hhash.2.2 rfl
  exact .comment hmunch (List.nil_append _).symm (by simp) h

/-- White space in front does not matter. -/
theorem scans_dropWhile : Scans ft (rest.dropWhile isSpace) ts ↔ Scans ft rest ts := by
  cases rest with
  | nil => rfl
  | cons c rest =>
      by_cases hc : isSpace c
      · have hfirst : firstMatch (rules ft) (c :: rest.takeWhile isSpace) = some .skip :=
          firstMatch_space (by simp) (List.forall_mem_cons.mpr
            ⟨hc, fun x hx => List.mem_takeWhile_imp hx⟩)
        have hmunch := munch_space hc hfirst
        have hdrop : (c :: rest).drop ((rest.takeWhile isSpace).length + 1) =
            rest.dropWhile isSpace := by
          have hsplit := List.takeWhile_append_dropWhile (p := isSpace) (l := rest)
          calc (c :: rest).drop ((rest.takeWhile isSpace).length + 1)
              = (rest.takeWhile isSpace ++ rest.dropWhile isSpace).drop
                  (rest.takeWhile isSpace).length := by rw [hsplit, List.drop_succ_cons]
            _ = rest.dropWhile isSpace := List.drop_left
        rw [List.dropWhile_cons_of_pos hc]
        constructor
        · exact fun h => .skip hmunch (hdrop.symm ▸ h)
        · intro h
          cases h with
          | token hmunch' => cases hmunch.symm.trans hmunch'
          | skip hmunch' h =>
              cases hmunch.symm.trans hmunch'
              exact hdrop ▸ h
          | comment hmunch' => cases hmunch.symm.trans hmunch'
      · rw [List.dropWhile_cons_of_neg hc]

theorem scans_space (hw : ∀ x ∈ w, isSpace x) (h : Scans ft rest ts) : Scans ft (w ++ rest) ts := by
  rw [← scans_dropWhile, List.dropWhile_append_of_pos hw, scans_dropWhile]
  exact h

theorem stops_cons (hc : ¬ isWordChar c) : Stops (c :: rest) := by
  intro x hx
  rw [List.head?_cons, Option.mem_some_iff] at hx
  exact hx ▸ hc

/-! ## Values -/

/-- The `int` that the digits of a number are read as, without its sign. -/
def magnitude (n : BitVec 32) : BitVec 32 := .ofNat 32 n.toInt.natAbs

/-- A text without the sign in front. -/
def unsigned (text : List UInt8) : List UInt8 :=
  if text.head? = some (byte '-') then text.tail else text

/-- The token of a written `float`: that of the text after the sign. -/
def floatToken (ft : FloatText F) (x : F) : Token F :=
  let body := unsigned (ft.format x)
  if (body.head?.map isDigit).getD false then .float (ft.atof body) else .parameter (.ofBytes body)

/-- The token of a written value, if its text is scanned as one token. -/
def valueToken (ft : FloatText F) (e : Elem F) : Option (Token F) :=
  match e.ptype, e.value with
  | .string, .sval s => if stringBody.accepts s.bytes then some (.stringLiteral s) else none
  | .integer, .ival n => some (.decimal (magnitude n))
  | .float, .fval x => some (floatToken ft x)
  | .boolean, .ival n => some (.boolean (if n = 0 then 0 else 1))
  | _, _ => none

theorem atoi_decimal {m : ℕ} (hm : m < 2 ^ 63) : atoi (decimal m) = .ofNat 32 m := by
  have hall : (decimal m).takeWhile isDigit = decimal m :=
    List.takeWhile_eq_self_iff.mpr fun c hc => isDigit_of_mem_decimal hc
  rw [atoi, hall, readNat_decimal, min_eq_left (by omega)]

theorem natAbs_toInt_lt (n : BitVec 32) : n.toInt.natAbs < 2 ^ 63 := by
  have h₁ := n.toInt_lt
  have h₂ := n.le_toInt
  omega

theorem scans_minus (h : Scans ft rest ts) : Scans ft (byte '-' :: rest) ts :=
  scans_unknown ⟨by decide, by decide, by decide⟩ rfl h

theorem scans_formatInt (n : BitVec 32) (hstops : Stops rest) (h : Scans ft rest ts) :
    Scans ft (formatInt n ++ rest) (.decimal (magnitude n) :: ts) := by
  have hdigits : Scans ft (decimal n.toInt.natAbs ++ rest) (.decimal (magnitude n) :: ts) := by
    have hscan := scans_word (decimal_ne_nil _)
      (fun c hc => isWordChar_of_isDigit (isDigit_of_mem_decimal hc))
      (firstMatch_decimal (decimal_ne_nil n.toInt.natAbs) fun c hc => isDigit_of_mem_decimal hc)
      hstops h
    rwa [atoi_decimal (natAbs_toInt_lt n)] at hscan
  rw [formatInt]
  split
  · exact scans_minus hdigits
  · exact hdigits

/-- The text of a `float` without its sign. -/
theorem unsigned_format (ft : FloatText F) (x : F) :
    (ft.format x = unsigned (ft.format x) ∨ ft.format x = byte '-' :: unsigned (ft.format x)) ∧
      ((∃ u v, unsigned (ft.format x) = u ++ byte '.' :: v ∧ u ≠ [] ∧ v ≠ [] ∧
        (∀ c ∈ u, isDigit c) ∧ ∀ c ∈ v, isDigit c) ∨
        unsigned (ft.format x) = bytes "inf" ∨ unsigned (ft.format x) = bytes "nan") := by
  obtain ⟨sign, body, hformat, hsign, hbody⟩ := ft.shape x
  have hbody : (∃ u v, body = u ++ byte '.' :: v ∧ u ≠ [] ∧ v ≠ [] ∧
      (∀ c ∈ u, isDigit c) ∧ ∀ c ∈ v, isDigit c) ∨ body = bytes "inf" ∨ body = bytes "nan" := by
    refine hbody.imp_left fun ⟨u, v, hbody, h⟩ => ⟨u, v, ?_, h⟩
    rw [hbody, List.append_assoc]
    rfl
  have hhead : body.head? ≠ some (byte '-') := by
    rcases hbody with ⟨u, v, rfl, hu, -, hdigit, -⟩ | rfl | rfl
    · obtain ⟨c, u, rfl⟩ := List.exists_cons_of_ne_nil hu
      intro h
      rw [List.cons_append, List.head?_cons, Option.some.injEq] at h
      exact absurd (hdigit c List.mem_cons_self) (h ▸ by decide)
    · decide
    · decide
  rcases hsign with rfl | rfl
  · have hunsigned : unsigned (ft.format x) = body := by
      rw [hformat, List.nil_append, unsigned, if_neg hhead]
    rw [hunsigned]
    exact ⟨Or.inl hformat, hbody⟩
  · have hunsigned : unsigned (ft.format x) = body := by
      rw [hformat]
      exact if_pos rfl
    rw [hunsigned]
    exact ⟨Or.inr hformat, hbody⟩

theorem scans_format (x : F) (hstops : Stops rest) (h : Scans ft rest ts) :
    Scans ft (ft.format x ++ rest) (floatToken ft x :: ts) := by
  obtain ⟨hsign, hbody⟩ := unsigned_format ft x
  have hunsigned : Scans ft (unsigned (ft.format x) ++ rest) (floatToken ft x :: ts) := by
    rcases hbody with ⟨u, v, hbody, hu, hv, hdu, hdv⟩ | hbody | hbody
    · have htoken : floatToken ft x = .float (ft.atof (u ++ byte '.' :: v)) := by
        obtain ⟨c, u, rfl⟩ := List.exists_cons_of_ne_nil hu
        simp [floatToken, hbody, hdu c List.mem_cons_self]
      rw [htoken, hbody]
      refine scans_word (by simp) (fun c hc => ?_) (firstMatch_float hdu hv hdv) hstops h
      rcases List.mem_append.mp hc with hc | hc
      · exact isWordChar_of_isDigit (hdu c hc)
      · rcases List.mem_cons.mp hc with rfl | hc
        · decide
        · exact isWordChar_of_isDigit (hdv c hc)
    · have htoken : floatToken ft x = .parameter (.ofBytes (bytes "inf")) := by
        rw [floatToken, hbody]
        exact if_neg (by decide)
      rw [htoken, hbody]
      exact scans_word (w := bytes "inf") (by decide) (forall_mem_of_all (by decide)) rfl hstops h
    · have htoken : floatToken ft x = .parameter (.ofBytes (bytes "nan")) := by
        rw [floatToken, hbody]
        exact if_neg (by decide)
      rw [htoken, hbody]
      exact scans_word (w := bytes "nan") (by decide) (forall_mem_of_all (by decide)) rfl hstops h
  rcases hsign with hsign | hsign
  · rwa [← hsign] at hunsigned
  · rw [hsign, List.cons_append]
    exact scans_minus hunsigned

/-- A value whose text is one token is scanned as this token. -/
theorem scans_value {e : Elem F} (he : valueToken ft e = some t) :
    ∃ text, writeValue ft e = some text ∧ ∀ {rest ts}, Stops rest → Scans ft rest ts →
      Scans ft (text ++ rest) (t :: ts) := by
  obtain ⟨ptype, value⟩ := e
  unfold valueToken at he
  split at he
  · next s hptype hvalue =>
    cases hptype
    cases hvalue
    split at he
    · next hs =>
      cases he
      refine ⟨_, rfl, fun _ h => ?_⟩
      have hscan := scans_string (Regex.accepts_iff.mp hs) h
      rw [show literalValue _ = s from CString.ext (literalValue_quoted s.noNul)] at hscan
      rw [List.append_assoc, List.append_assoc]
      exact hscan
    · cases he
  · next n hptype hvalue =>
    cases hptype
    cases hvalue
    cases he
    exact ⟨_, rfl, scans_formatInt n⟩
  · next x hptype hvalue =>
    cases hptype
    cases hvalue
    cases he
    exact ⟨_, rfl, scans_format x⟩
  · next n hptype hvalue =>
    cases hptype
    cases hvalue
    cases he
    refine ⟨_, rfl, fun hstops h => ?_⟩
    by_cases hn : n = 0
    · rw [if_pos hn, if_pos hn]
      exact scans_word (w := bytes "false") (by decide) (forall_mem_of_all (by decide)) rfl hstops h
    · rw [if_neg hn, if_neg hn]
      exact scans_word (w := bytes "true") (by decide) (forall_mem_of_all (by decide)) rfl hstops h
  · cases he

/-! ## Lines -/

/-- The token of a written name. -/
def nameToken (name : CString) : Token F :=
  if name.bytes = bytes "true" then .boolean 1
  else if name.bytes = bytes "false" then .boolean 0
  else .parameter name

theorem scans_name {name : CString} (hname : IsIdentifier name.bytes) (hstops : Stops rest)
    (h : Scans ft rest ts) : Scans ft (name.bytes ++ rest) (nameToken name :: ts) := by
  unfold nameToken
  split
  · next ht =>
    rw [ht]
    exact scans_word (w := bytes "true") (by decide) (forall_mem_of_all (by decide)) rfl hstops h
  · next ht =>
    split
    · next hf =>
      rw [hf]
      exact scans_word (w := bytes "false") (by decide) (forall_mem_of_all (by decide)) rfl hstops h
    · next hf =>
      have hscan := scans_word hname.ne_nil hname.isWordChar (firstMatch_identifier hname ht hf)
        hstops h
      rwa [CString.ofBytes_bytes] at hscan

/-- The tokens of the written elements of a list. -/
def elemTokens (ft : FloatText F) : List (Elem F) → Option (List (Token F))
  | [] => none
  | [e] => do
      let t ← valueToken ft e
      some [t]
  | e :: es => do
      let t ← valueToken ft e
      let ts ← elemTokens ft es
      some (t :: .comma :: ts)

/-- The tokens of the line of a parameter; the counter of a list is right. -/
def paramTokens (ft : FloatText F) (p : ConfigParameter F) : Option (List (Token F)) :=
  match p.val.ptype, p.val.payload with
  | .list, .array numParams elems =>
      if numParams = elems.length then do
        let ts ← elemTokens ft elems
        some (nameToken p.name :: .assignment :: .listOpen :: (ts ++ [.listClose]))
      else none
  | .list, .scalar _ => none
  | _, .array _ _ => none
  | type, .scalar value => do
      let t ← valueToken ft (allocElem type value)
      some [nameToken p.name, .assignment, t]

/-- The tokens of the lines of the parameters. -/
def paramsTokens (ft : FloatText F) : List (ConfigParameter F) → Option (List (Token F))
  | [] => some []
  | p :: ps => do
      let ts ← paramTokens ft p
      let rest ← paramsTokens ft ps
      some (ts ++ rest)

theorem scans_blank (h : Scans ft rest ts) : Scans ft (byte ' ' :: rest) ts :=
  scans_space (w := [byte ' ']) (forall_mem_of_all (by decide)) h

theorem scans_newline (h : Scans ft rest ts) : Scans ft (byte '\n' :: rest) ts :=
  scans_space (w := [byte '\n']) (forall_mem_of_all (by decide)) h

theorem scans_comma (h : Scans ft rest ts) : Scans ft (bytes " , " ++ rest) (.comma :: ts) :=
  scans_blank <| scans_mark ⟨by decide, by decide, by decide⟩ rfl <|
    scans_blank h

theorem scans_assignment {name : CString} (hname : IsIdentifier name.bytes)
    (h : Scans ft rest ts) :
    Scans ft (padName name ++ (bytes "= " ++ rest)) (nameToken name :: .assignment :: ts) := by
  have hassign : Scans ft (bytes "= " ++ rest) (.assignment :: ts) :=
    scans_mark ⟨by decide, by decide, by decide⟩ rfl <|
      scans_blank h
  have hpad : ∀ x ∈ List.replicate (20 - name.length) (byte ' '), isSpace x := by
    intro x hx
    rw [(List.mem_replicate.mp hx).2]
    decide
  rw [padName, List.append_assoc]
  refine scans_name hname ?_ (scans_space hpad hassign)
  cases 20 - name.length with
  | zero => exact stops_cons (by decide)
  | succ n => exact stops_cons (by decide)

theorem scans_elems {es : List (Elem F)} (hes : elemTokens ft es = some ts) :
    ∃ text, writeElems ft es = some text ∧ ∀ {rest ts'}, Stops rest → Scans ft rest ts' →
      Scans ft (text ++ rest) (ts ++ ts') := by
  induction es generalizing ts with
  | nil => simp [elemTokens] at hes
  | cons e es ih =>
      cases es with
      | nil =>
          obtain ⟨t, ht, hes⟩ := Option.bind_eq_some_iff.mp hes
          cases hes
          exact scans_value ht
      | cons e' es =>
          obtain ⟨t, ht, hes⟩ := Option.bind_eq_some_iff.mp hes
          obtain ⟨ts, hts, hes⟩ := Option.bind_eq_some_iff.mp hes
          cases hes
          obtain ⟨text, htext, hvalue⟩ := scans_value ht
          obtain ⟨text', htext', helems⟩ := ih hts
          refine ⟨text ++ bytes " , " ++ text', ?_, fun hstops h => ?_⟩
          · simp [writeElems, htext, htext']
          · rw [List.append_assoc, List.append_assoc]
            exact hvalue (stops_cons (by decide)) (scans_comma (helems hstops h))

/-- A line is that of a scalar or that of a list. -/
theorem paramTokens_eq_some {p : ConfigParameter F} (hp : paramTokens ft p = some ts) :
    (∃ value t, p.val.payload = .scalar value ∧
      valueToken ft (allocElem p.val.ptype value) = some t ∧
      ts = [nameToken p.name, .assignment, t]) ∨
    ∃ elems ts', p.val = allocPValueList elems ∧ elemTokens ft elems = some ts' ∧
      ts = nameToken p.name :: .assignment :: .listOpen :: (ts' ++ [.listClose]) := by
  obtain ⟨name, ptype, payload⟩ := p
  unfold paramTokens at hp
  split at hp
  · next numParams elems hptype hpayload =>
    cases hptype
    cases hpayload
    split at hp
    · next hlen =>
      obtain ⟨ts', hts, hp⟩ := Option.bind_eq_some_iff.mp hp
      cases hp
      exact Or.inr ⟨elems, ts', by rw [hlen]; rfl, hts, rfl⟩
    · cases hp
  · cases hp
  · cases hp
  · next value hpayload _ =>
    cases hpayload
    obtain ⟨t, ht, hp⟩ := Option.bind_eq_some_iff.mp hp
    cases hp
    exact Or.inl ⟨value, t, rfl, ht, rfl⟩

theorem writeParameter_scalar {name : CString} {ptype : ParamType} {value : Scalar F}
    (ht : valueToken ft (allocElem ptype value) = some t)
    (htext : writeValue ft (allocElem ptype value) = some text) :
    writeParameter ft { name := name, val := { ptype := ptype, payload := .scalar value } } =
      some (padName name ++ bytes "= " ++ text ++ bytes "\n") := by
  cases ptype with
  | list => simp [valueToken, allocElem] at ht
  | _ => simp [writeParameter, htext]

/-- A parameter with an identifier for its name is written as one line, and this
is scanned as its tokens. -/
theorem scans_parameter {p : ConfigParameter F} (hname : IsIdentifier p.name.bytes)
    (hp : paramTokens ft p = some ts) :
    ∃ line, writeParameter ft p = some line ∧ ∀ {rest ts'}, Scans ft rest ts' →
      Scans ft (line ++ rest) (ts ++ ts') := by
  obtain ⟨name, ptype, payload⟩ := p
  rcases paramTokens_eq_some hp with ⟨value, t, hpayload, ht, rfl⟩ | ⟨elems, ts, hval, hts, rfl⟩
  · cases hpayload
    obtain ⟨text, htext, hvalue⟩ := scans_value ht
    refine ⟨_, writeParameter_scalar ht htext, fun h => ?_⟩
    simp only [List.append_assoc]
    exact scans_assignment hname (hvalue (stops_cons (by decide)) (scans_newline h))
  · cases hval
    obtain ⟨text, htext, helems⟩ := scans_elems hts
    refine ⟨padName name ++ bytes "= [ " ++ text ++ bytes " ]\n", ?_, fun h => ?_⟩
    · simp [writeParameter, htext]
    · simp only [List.append_assoc, List.cons_append]
      refine scans_assignment hname ?_
      refine scans_mark ⟨by decide, by decide, by decide⟩ rfl (scans_blank ?_)
      refine helems (stops_cons (by decide)) (scans_blank ?_)
      exact scans_mark ⟨by decide, by decide, by decide⟩ rfl (scans_newline h)

theorem scans_parameters {ps : List (ConfigParameter F)}
    (hname : ∀ p ∈ ps, IsIdentifier p.name.bytes) (hps : paramsTokens ft ps = some ts) :
    ∃ lines, writeParameters ft ps = some lines ∧ ∀ {rest ts'}, Scans ft rest ts' →
      Scans ft (lines ++ rest) (ts ++ ts') := by
  induction ps generalizing ts with
  | nil =>
      cases hps
      exact ⟨[], rfl, fun h => h⟩
  | cons p ps ih =>
      rw [List.forall_mem_cons] at hname
      obtain ⟨ts₁, hp, hrest⟩ := Option.bind_eq_some_iff.mp hps
      obtain ⟨ts₂, hps₂, heq⟩ := Option.bind_eq_some_iff.mp hrest
      cases heq
      obtain ⟨line, hline, hscan⟩ := scans_parameter hname.1 hp
      obtain ⟨lines, hlines, hscans⟩ := ih hname.2 hps₂
      refine ⟨line ++ lines, by simp [writeParameters, hline, hlines], fun h => ?_⟩
      rw [List.append_assoc, List.append_assoc]
      exact hscan (hscans h)

/-- The lines before the parameters are comments. -/
theorem scans_header {lines : List UInt8} (h : Scans ft lines ts) :
    Scans ft (bytes "#\n#\n#\n\n" ++ lines) ts :=
  scans_comment (scans_comment (scans_comment (scans_newline h)))

/-- A configuration is written, and the text is scanned as the tokens of its
parameters. -/
theorem scans_writeConfig {cfg : ConfigCB F} (hname : ∀ p ∈ cfg.params, IsIdentifier p.name.bytes)
    (hcfg : paramsTokens ft cfg.params = some ts) :
    ∃ text, writeConfig ft cfg = some text ∧ Scans ft text ts := by
  obtain ⟨lines, hlines, hscan⟩ := scans_parameters hname hcfg
  refine ⟨bytes "#\n#\n#\n\n" ++ lines, by simp [writeConfig, hlines], scans_header ?_⟩
  simpa using hscan .eof

end Config

end Infra
