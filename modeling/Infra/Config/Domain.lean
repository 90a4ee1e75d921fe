import Infra.Config.Scans

/-!
# Configurations with values in a domain

A domain says which values a configuration may hold. A configuration is in it
when its names are those of parameters, its type tags are those of the members
last written, its lists are not empty and counted right, and its values are of
the domain. Tokens of the domain are made into configurations of the domain, and
what the scanner reads from a file without NUL are strings that are again the
body of a literal.
-/

namespace Infra

namespace Config

open Infra.Ascii Infra.Scanning

variable {F : Type} {ft : FloatText F}

/-- The name is a word for a boolean. -/
def IsKeyword (name : CString) : Prop :=
  name.bytes = bytes "true" ∨ name.bytes = bytes "false"

instance (name : CString) : Decidable (IsKeyword name) := instDecidableOr

/-- The names of parameters. -/
def IsName (name : CString) : Prop := IsIdentifier name.bytes ∧ ¬ IsKeyword name

theorem isName_single {c : UInt8} (hc : isLetter c) : IsName (.ofBytes [c]) := by
  have hnul : (0 : UInt8) ∉ [c] := by
    rw [List.mem_singleton]
    rintro rfl
    exact absurd hc (by decide)
  rw [IsName, IsKeyword, CString.bytes_ofBytes_eq hnul]
  refine ⟨⟨c, [], rfl, hc, by simp⟩, ?_⟩
  rintro (h | h)
  · simpa [bytes] using congrArg List.length h
  · simpa [bytes] using congrArg List.length h

/-- The strings that may stand between quotes. -/
def IsLiteralBody (s : CString) : Prop := s.bytes ∈ stringBody.lang

/-- Which values a configuration may hold. -/
structure Domain (F : Type) where
  int : BitVec 32 → Prop
  str : CString → Prop
  flt : F → Prop

instance : LE (Domain F) where
  le D D' := (∀ n, D.int n → D'.int n) ∧ (∀ s, D.str s → D'.str s) ∧ ∀ x, D.flt x → D'.flt x

/-- Every value. -/
def Domain.all : Domain F := { int := fun _ => True, str := fun _ => True, flt := fun _ => True }

/-- Every value, but of the strings only those that may stand between quotes. -/
def Domain.quotable : Domain F := { Domain.all with str := IsLiteralBody }

/-- The same domain without a `float`. -/
def Domain.noFloat (D : Domain F) : Domain F := { D with flt := fun _ => False }

/-- Every value, and under a condition only the strings that may stand between
quotes. -/
def Domain.quotableIf (P : Prop) : Domain F :=
  { Domain.all with str := fun s => P → IsLiteralBody s }

theorem Domain.quotableIf_mono {P Q : Prop} (h : Q → P) :
    (quotableIf P : Domain F) ≤ quotableIf Q :=
  ⟨fun _ hn => hn, fun _ hs hq => hs (h hq), fun _ hx => hx⟩

theorem Domain.quotableIf_le {P : Prop} (h : P) : (quotableIf P : Domain F) ≤ quotable :=
  ⟨fun _ hn => hn, fun _ hs => hs h, fun _ hx => hx⟩

/-- The element holds a value of its type, and of the domain. -/
def Elem.In (e : Elem F) (D : Domain F) : Prop :=
  match e.ptype, e.value with
  | .string, .sval s => D.str s
  | .integer, .ival n => D.int n
  | .float, .fval x => D.flt x
  | .boolean, .ival n => n = 0 ∨ n = 1
  | _, _ => False

/-- The value is a scalar of the domain or a list of such scalars. -/
def ParamValue.In (v : ParamValue F) (D : Domain F) : Prop :=
  match v.payload with
  | .scalar value => (allocElem v.ptype value).In D
  | .array numParams elems =>
      v.ptype = .list ∧ numParams = elems.length ∧ elems ≠ [] ∧ ∀ e ∈ elems, e.In D

/-- The parameter has a name and a value of the domain. -/
def ConfigParameter.In (p : ConfigParameter F) (D : Domain F) : Prop := IsName p.name ∧ p.val.In D

/-- The parameters are of the domain, and they are counted right. -/
def ConfigCB.In (cfg : ConfigCB F) (D : Domain F) : Prop :=
  (∀ p ∈ cfg.params, p.In D) ∧ cfg.numParams = cfg.params.length

/-- The semantic value of the token is of the domain. -/
def Token.In (t : Token F) (D : Domain F) : Prop :=
  match t with
  | .parameter name => IsName name
  | .decimal n => D.int n
  | .stringLiteral s => D.str s
  | .float x => D.flt x
  | .boolean n => n = 0 ∨ n = 1
  | _ => True

section Monotone

variable {D D' : Domain F}

theorem Elem.In.mono {e : Elem F} (hD : D ≤ D') (h : e.In D) : e.In D' := by
  unfold Elem.In at h ⊢
  split
  · exact hD.2.1 _ (by simp_all)
  · exact hD.1 _ (by simp_all)
  · exact hD.2.2 _ (by simp_all)
  · simp_all
  · split at h <;> simp_all

theorem ParamValue.In.mono {v : ParamValue F} (hD : D ≤ D') (h : v.In D) : v.In D' := by
  obtain ⟨ptype, payload⟩ := v
  cases payload with
  | scalar value => exact Elem.In.mono hD h
  | array numParams elems =>
      exact ⟨h.1, h.2.1, h.2.2.1, fun e he => (h.2.2.2 e he).mono hD⟩

theorem ConfigParameter.In.mono {p : ConfigParameter F} (hD : D ≤ D') (h : p.In D) : p.In D' :=
  ⟨h.1, h.2.mono hD⟩

theorem Token.In.mono {t : Token F} (hD : D ≤ D') (h : t.In D) : t.In D' := by
  cases t with
  | decimal n => exact hD.1 n h
  | stringLiteral s => exact hD.2.1 s h
  | float x => exact hD.2.2 x h
  | _ => exact h

end Monotone

/-! ## What the parser makes -/

section Parser

variable {D : Domain F} {p q : Parser F} {t : Token F} {ts : List (Token F)}

theorem unitValue_in {e : Elem F} (ht : t.In D) (he : unitValue t = some e) : e.In D := by
  cases t with
  | stringLiteral s =>
      cases he
      exact ht
  | decimal n =>
      cases he
      exact ht
  | float x =>
      cases he
      exact ht
  | boolean n =>
      cases he
      exact ht
  | _ => cases he

/-- A token that is a value is a scalar. -/
theorem allocPValue_in {e : Elem F} (h : e.In D) : (allocPValue e.ptype e.value).In D := h

theorem addConfigParam_in {cfg : ConfigCB F} {name : CString} {v : ParamValue F} (h : cfg.In D)
    (hname : IsName name) (hv : v.In D) : (addConfigParam cfg name v).In D := by
  refine ⟨fun p hp => ?_, ?_⟩
  · rcases List.mem_append.mp hp with hp | hp
    · exact h.1 p hp
    · rw [List.mem_singleton.mp hp]
      exact ⟨hname, hv⟩
  · simp [addConfigParam, addParameter, h.2]

/-- What holds of the parser between two tokens. -/
structure Parser.In (p : Parser F) (D : Domain F) : Prop where
  cfg : p.cfg.In D
  elems : ∀ e ∈ p.gList, e.In D
  expect : match p.expect with
    | .expression => True
    | .assign name => IsName name
    | .value name => IsName name
    | .element name => IsName name
    | .separator name => IsName name ∧ p.gList ≠ []

theorem start_in : (Parser.start : Parser F).In D where
  cfg := ⟨by simp [Parser.start, initConfig], rfl⟩
  elems := by simp [Parser.start]
  expect := trivial

theorem step_in (hp : p.In D) (ht : t.In D) (hstep : p.step t = some q) : q.In D := by
  obtain ⟨hcfg, helems, hexpect⟩ := hp
  rcases Parser.step_cases hstep with ⟨name, hp, rfl, rfl⟩ | ⟨name, hp, rfl, rfl⟩ |
    ⟨name, hp, rfl, rfl⟩ | ⟨name, e, hp, he, rfl⟩ | ⟨name, e, hp, he, rfl⟩ |
    ⟨name, hp, rfl, rfl⟩ | ⟨name, hp, rfl, rfl⟩ <;> rw [hp] at hexpect
  · exact ⟨hcfg, helems, ht⟩
  · exact ⟨hcfg, helems, hexpect⟩
  · exact ⟨hcfg, by simp, hexpect⟩
  · exact ⟨addConfigParam_in hcfg hexpect (allocPValue_in (unitValue_in ht he)), helems, trivial⟩
  · refine ⟨hcfg, ?_, hexpect, by simp⟩
    rw [List.forall_mem_append, List.forall_mem_singleton]
    exact ⟨helems, unitValue_in ht he⟩
  · exact ⟨hcfg, helems, hexpect.1⟩
  · have hlist : (allocPValueList p.gList).In D := ⟨rfl, rfl, hexpect.2, helems⟩
    exact ⟨addConfigParam_in hcfg hexpect.1 hlist, by simp, trivial⟩

/-- Tokens of a domain are made into a configuration of the domain. -/
theorem accept_in {cfg : ConfigCB F} (hp : p.In D) (hts : ∀ t ∈ ts, t.In D)
    (haccept : p.accept ts = some cfg) : cfg.In D := by
  induction ts generalizing p with
  | nil =>
      rw [Parser.accept] at haccept
      split at haccept
      · cases haccept
        exact hp.cfg
      · cases haccept
  | cons t ts ih =>
      rw [List.forall_mem_cons] at hts
      obtain ⟨q, hstep, haccept⟩ := Option.bind_eq_some_iff.mp haccept
      exact ih (step_in hp hts.1 hstep) hts.2 haccept

end Parser

/-! ## What the scanner reads -/

section Scanner

variable {s w : List UInt8} {t : Token F} {ts : List (Token F)} {cfg : ConfigCB F}

theorem IsIdentifier.not_mem_zero (h : IsIdentifier w) : 0 ∉ w :=
  fun h0 => absurd (h.isWordChar 0 h0) (by decide)

/-- The token of a match. -/
theorem token_in {value : List UInt8 → Token F}
    (h : firstMatch (rules ft) w = some (.token value)) :
    (value w).In (.quotableIf (0 ∉ w)) := by
  by_cases ht : w = bytes "true"
  · subst ht
    cases h.symm.trans (show firstMatch (rules ft) (bytes "true") = _ from rfl)
    exact Or.inr rfl
  by_cases hf : w = bytes "false"
  · subst hf
    cases h.symm.trans (show firstMatch (rules ft) (bytes "false") = _ from rfl)
    exact Or.inl rfl
  obtain ⟨pre, r, post, hrules, hmem, -⟩ := firstMatch_eq_some.mp h
  have hr : (r, Action.token value) ∈ rules ft := by simp [hrules]
  simp only [rules, List.mem_cons, Prod.mk.injEq, reduceCtorEq, and_false, false_or,
    Action.token.injEq, List.not_mem_nil, or_false] at hr
  rcases hr with ⟨rfl, rfl⟩ | ⟨rfl, rfl⟩ | ⟨rfl, rfl⟩ | ⟨rfl, rfl⟩ | ⟨rfl, rfl⟩ | ⟨rfl, rfl⟩ |
    ⟨rfl, rfl⟩ | ⟨rfl, rfl⟩ | ⟨rfl, rfl⟩ | ⟨rfl, rfl⟩ | ⟨rfl, rfl⟩
  · trivial
  · exact Or.inr rfl
  · exact Or.inl rfl
  · trivial
  · trivial
  · trivial
  · have hid : IsIdentifier w := mem_identifier.mp hmem
    have hbytes := CString.bytes_ofBytes_eq hid.not_mem_zero
    exact ⟨hbytes.symm ▸ hid, by rw [IsKeyword, hbytes]; exact not_or.mpr ⟨ht, hf⟩⟩
  · trivial
  · trivial
  · trivial
  · intro hnul
    obtain ⟨body, hb, rfl⟩ := mem_stringLiteral.mp hmem
    have hbody : 0 ∉ body := fun h0 => hnul (by simp [h0])
    rwa [IsLiteralBody, literalValue_quoted hbody]

theorem Scans.token_in (h : Scans ft s ts) (ht : t ∈ ts) : t.In (.quotableIf (0 ∉ s)) := by
  induction h with
  | eof => cases ht
  | token hmunch hrest ih =>
      rcases List.mem_cons.mp ht with rfl | ht
      · obtain ⟨-, -, hfirst, -⟩ := munch_eq_some.mp hmunch
        exact (Config.token_in hfirst).mono
          (Domain.quotableIf_mono (mt fun h0 => List.mem_of_mem_take h0))
      · exact (ih ht).mono (Domain.quotableIf_mono (mt fun h0 => List.mem_of_mem_drop h0))
  | skip hmunch hrest ih =>
      exact (ih ht).mono (Domain.quotableIf_mono (mt fun h0 => List.mem_of_mem_drop h0))
  | @comment s pre rest n ts hmunch hdrop hpre hrest ih =>
      have hsub : 0 ∈ rest → 0 ∈ s := fun h0 =>
        List.mem_of_mem_drop (i := n) (by rw [hdrop]; simp [h0])
      exact (ih ht).mono (Domain.quotableIf_mono (mt hsub))

/-- What is read from a file without NUL can be written between quotes. -/
theorem Reads.quotable (h : Reads ft s cfg) (hnul : 0 ∉ s) : cfg.In Domain.quotable := by
  obtain ⟨ts, hscan, haccept⟩ := reads_iff.mp h
  exact accept_in start_in
    (fun t ht => (hscan.token_in ht).mono (Domain.quotableIf_le hnul)) haccept

/-- What is read from a file without a token for a `float` has no `float`. -/
theorem Reads.noFloat (h : Reads ft s cfg)
    (hfloat : ∀ fuel ts x, tokens ft fuel s = some ts → .float x ∉ ts) :
    cfg.In Domain.all.noFloat := by
  obtain ⟨ts, hscan, haccept⟩ := reads_iff.mp h
  obtain ⟨fuel, htokens⟩ := scans_iff.mp hscan
  refine accept_in start_in (fun t ht => ?_) haccept
  have hin := hscan.token_in ht
  cases t with
  | float x => exact absurd ht (hfloat fuel ts x htokens)
  | decimal n => trivial
  | stringLiteral str => trivial
  | _ => exact hin

/-- Whatever `parseConfig` returns, the parameters it leaves have names, and values of
their types. -/
theorem parsed_in {fuel : ℕ} {file : Option (List UInt8)} {ret : ℤ}
    (h : parseConfig ft fuel file = some (ret, cfg)) : ∀ p ∈ cfg.params, p.In Domain.all := by
  cases file with
  | none =>
      cases h
      simp [initConfig]
  | some s =>
      obtain ⟨⟨q, ok⟩, hyy, hret⟩ := Option.bind_eq_some_iff.mp h
      cases ok with
      | false =>
          cases hret
          simp [freeConfig]
      | true =>
          cases hret
          obtain ⟨ts, hscan, haccept⟩ := scans_of_yyparse hyy
          have hall : (Domain.quotableIf (0 ∉ s) : Domain F) ≤ Domain.all :=
            ⟨fun _ _ => trivial, fun _ _ => trivial, fun _ _ => trivial⟩
          exact (accept_in start_in (fun t ht => (hscan.token_in ht).mono hall) haccept).1

end Scanner

end Config

end Infra
