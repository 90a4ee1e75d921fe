import Infra.Config.Scans

/-!
# The grammar of `cfg_parser.y`

The rules of the grammar, as the token sequences that they derive. What the parser
has read at any time is some complete expressions, each of which has added a
parameter, and the beginning of another one; so it accepts what the grammar derives.
-/

namespace Infra

namespace Config

variable {F : Type} {p q : Parser F} {t v : Token F} {ts e : List (Token F)} {name : CString}

/-- `value_sequence`. -/
inductive ValueSequence : List (Token F) → Prop where
  | unit {v : Token F} (hv : (unitValue v).isSome) : ValueSequence [v]
  | cons {v : Token F} {ts : List (Token F)} (hv : (unitValue v).isSome) (h : ValueSequence ts) :
      ValueSequence (v :: .comma :: ts)

/-- `cfg_expression`. -/
inductive CfgExpression : List (Token F) → Prop where
  | unit {v : Token F} (name : CString) (hv : (unitValue v).isSome) :
      CfgExpression [.parameter name, .assignment, v]
  | list {ts : List (Token F)} (name : CString) (h : ValueSequence ts) :
      CfgExpression (.parameter name :: .assignment :: .listOpen :: (ts ++ [.listClose]))

/-- `cfg_list`, with its expressions. -/
def CfgList (ts : List (Token F)) : Prop :=
  ∃ es : List (List (Token F)), (∀ e ∈ es, CfgExpression e) ∧ ts = es.flatten

/-- What the parser has read of an expression that is not complete. -/
def Pending : Expect → List (Token F) → Prop
  | .expression, ts => ts = []
  | .assign name, ts => ts = [.parameter name]
  | .value name, ts => ts = [.parameter name, .assignment]
  | .element name, ts => ∃ seq, ts = .parameter name :: .assignment :: .listOpen :: seq ∧
      ∀ rest, ValueSequence rest → ValueSequence (seq ++ rest)
  | .separator name, ts => ∃ seq, ts = .parameter name :: .assignment :: .listOpen :: seq ∧
      ValueSequence seq ∧ ∀ rest, ValueSequence rest → ValueSequence (seq ++ .comma :: rest)

/-- The parser has read the tokens: complete expressions with a parameter for each, and
a part of another one. -/
def HasRead (p : Parser F) (ts : List (Token F)) : Prop :=
  ∃ (es : List (List (Token F))) (part : List (Token F)), (∀ e ∈ es, CfgExpression e) ∧
    ts = es.flatten ++ part ∧ Pending p.expect part ∧ p.cfg.params.length = es.length ∧
    p.cfg.numParams = es.length

/-! ## What the parser accepts is derived -/

/-- An expression that becomes complete has added its parameter. -/
theorem HasRead.complete {part : List (Token F)} {val : ParamValue F}
    {es : List (List (Token F))} (hes : ∀ e ∈ es, CfgExpression e)
    (hts : ts = es.flatten ++ part) (hlen : p.cfg.params.length = es.length)
    (hnum : p.cfg.numParams = es.length) (he : CfgExpression (part ++ [t]))
    (hexpect : q.expect = .expression) (hcfg : q.cfg = addConfigParam p.cfg name val) :
    HasRead q (ts ++ [t]) := by
  refine ⟨es ++ [part ++ [t]], [], ?_, by simp [hts], by rw [hexpect]; rfl, ?_, ?_⟩
  · rw [List.forall_mem_append, List.forall_mem_singleton]
    exact ⟨hes, he⟩
  · simp [hcfg, addConfigParam, addParameter, hlen]
  · simp [hcfg, addConfigParam, addParameter, hnum]

theorem HasRead.step (h : HasRead p ts) (hstep : p.step t = some q) : HasRead q (ts ++ [t]) := by
  obtain ⟨es, part, hes, hts, hpart, hlen, hnum⟩ := h
  have hgoes : ∀ part', part' = part ++ [t] → Pending q.expect part' → q.cfg = p.cfg →
      HasRead q (ts ++ [t]) := by
    rintro part' rfl hpart' hcfg
    exact ⟨es, part ++ [t], hes, by simp [hts], hpart', hcfg ▸ hlen, hcfg ▸ hnum⟩
  rcases Parser.step_cases hstep with ⟨name, hp, rfl, rfl⟩ | ⟨name, hp, rfl, rfl⟩ |
    ⟨name, hp, rfl, rfl⟩ | ⟨name, e, hp, ht, rfl⟩ | ⟨name, e, hp, ht, rfl⟩ |
    ⟨name, hp, rfl, rfl⟩ | ⟨name, hp, rfl, rfl⟩ <;> rw [hp] at hpart
  · obtain rfl : part = [] := hpart
    exact hgoes _ rfl rfl rfl
  · obtain rfl : part = [.parameter name] := hpart
    exact hgoes _ rfl rfl rfl
  · obtain rfl : part = [.parameter name, .assignment] := hpart
    exact hgoes _ rfl ⟨[], rfl, fun rest h => h⟩ rfl
  · obtain rfl : part = [.parameter name, .assignment] := hpart
    exact HasRead.complete hes hts hlen hnum (.unit name (by simp [ht])) rfl rfl
  · obtain ⟨seq, rfl, hseq⟩ := hpart
    have hunit : ValueSequence [t] := .unit (by simp [ht])
    refine hgoes _ rfl ⟨seq ++ [t], by simp, hseq _ hunit, fun rest hrest => ?_⟩ rfl
    rw [List.append_assoc]
    exact hseq _ (.cons (by simp [ht]) hrest)
  · obtain ⟨seq, rfl, -, hseq⟩ := hpart
    refine hgoes _ rfl ⟨seq ++ [.comma], by simp, fun rest hrest => ?_⟩ rfl
    rw [List.append_assoc]
    exact hseq rest hrest
  · obtain ⟨seq, rfl, hseq, -⟩ := hpart
    exact HasRead.complete hes hts hlen hnum (.list name hseq) rfl rfl

/-- What the parser has read after some tokens. -/
theorem HasRead.run {ts' : List (Token F)} (h : HasRead p ts)
    (hrun : ts'.foldlM Parser.step p = some q) : HasRead q (ts ++ ts') := by
  induction ts' generalizing p ts with
  | nil =>
      cases hrun
      simpa using h
  | cons t ts' ih =>
      rw [List.foldlM_cons] at hrun
      obtain ⟨p', hstep, hrest⟩ := Option.bind_eq_some_iff.mp hrun
      have hread := ih (h.step hstep) hrest
      rwa [List.append_assoc, List.singleton_append] at hread

theorem hasRead_start : HasRead (Parser.start : Parser F) [] :=
  ⟨[], [], by simp, rfl, rfl, rfl, rfl⟩

/-! ## What is derived is accepted -/

theorem unitValue_ne_listOpen (hv : (unitValue v).isSome) : v ≠ .listOpen := by
  rintro rfl
  cases hv

/-- The elements of a list gather in `_g_list`: each second token is one of them. -/
theorem ValueSequence.run (h : ValueSequence ts) (hp : p.expect = .element name) :
    ∃ gs, ts.foldlM Parser.step p =
        some { p with expect := .separator name, gList := p.gList ++ gs } ∧
      ∀ i, gs[i]? = ts[2 * i]?.bind unitValue := by
  have hunit : ∀ {p : Parser F} {v : Token F}, p.expect = .element name → (unitValue v).isSome →
      ∃ e, unitValue v = some e ∧
        p.step v = some { p with expect := .separator name, gList := p.gList ++ [e] } := by
    intro p v hp hv
    obtain ⟨e, he⟩ := Option.isSome_iff_exists.mp hv
    exact ⟨e, he, by simp [Parser.step, hp, he]⟩
  induction h generalizing p with
  | @unit v hv =>
      obtain ⟨e, he, hstep⟩ := hunit hp hv
      refine ⟨[e], by simp [hstep], fun i => ?_⟩
      cases i with
      | zero => simp [he]
      | succ i => simp [Nat.mul_succ]
  | @cons v ts hv _ ih =>
      obtain ⟨e, he, hstep⟩ := hunit hp hv
      obtain ⟨gs, hrest, hget⟩ :=
        ih (p := { p with expect := .element name, gList := p.gList ++ [e] }) rfl
      refine ⟨e :: gs, ?_, fun i => ?_⟩
      · rw [List.foldlM_cons, hstep]
        refine Eq.trans hrest ?_
        rw [List.append_assoc]
        rfl
      · cases i with
        | zero => simp [he]
        | succ i => exact hget i

/-- An expression adds one parameter. -/
theorem CfgExpression.run (h : CfgExpression e) (hp : p.expect = .expression) :
    ∃ q param, e.foldlM Parser.step p = some q ∧ q.expect = .expression ∧
      q.cfg = addParameter p.cfg param := by
  cases h with
  | @unit v name hv =>
      have hne := unitValue_ne_listOpen hv
      obtain ⟨val, hval⟩ := Option.isSome_iff_exists.mp hv
      refine ⟨{ p with expect := .expression,
                       cfg := addConfigParam p.cfg name (allocPValue val.ptype val.value) },
        { name := name, val := allocPValue val.ptype val.value }, ?_, rfl, rfl⟩
      simp only [List.foldlM_cons, Parser.step, hp, Option.bind_eq_bind, Option.bind_some, hval]
      rfl
  | @list ts name hts =>
      obtain ⟨gs, hrun, -⟩ := hts.run (p := { p with expect := .element name, gList := [] }) rfl
      refine ⟨{ expect := .expression, cfg := addConfigParam p.cfg name (allocPValueList gs),
                gList := [] }, { name := name, val := allocPValueList gs }, ?_, rfl, rfl⟩
      have hstart : (Token.parameter name :: .assignment :: .listOpen ::
          (ts ++ [Token.listClose])).foldlM Parser.step p =
            (ts ++ [Token.listClose]).foldlM Parser.step
              { p with expect := .element name, gList := [] } := by
        simp [Parser.step, hp]
      rw [hstart, List.foldlM_append, hrun]
      rfl

theorem CfgList.run (h : CfgList ts) (hp : p.expect = .expression) :
    ∃ q, ts.foldlM Parser.step p = some q ∧ q.expect = .expression := by
  obtain ⟨es, hes, rfl⟩ := h
  induction es generalizing p with
  | nil => exact ⟨p, rfl, hp⟩
  | cons e es ih =>
      rw [List.forall_mem_cons] at hes
      obtain ⟨q, -, hrun, hq, -⟩ := hes.1.run hp
      obtain ⟨q', hrest, hq'⟩ := ih hq hes.2
      refine ⟨q', ?_, hq'⟩
      rw [List.flatten_cons, List.foldlM_append, hrun]
      exact hrest

/-- Tokens are accepted when the parser stops between two expressions. -/
theorem Parser.accept_eq_some {cfg : ConfigCB F} : p.accept ts = some cfg ↔
    ∃ q, ts.foldlM Parser.step p = some q ∧ q.expect = .expression ∧ q.cfg = cfg := by
  induction ts generalizing p with
  | nil => simp [Parser.accept]
  | cons t ts ih =>
      simp only [Parser.accept, List.foldlM_cons, Option.bind_eq_bind, Option.bind_eq_some_iff, ih]
      constructor
      · rintro ⟨p', hstep, q, hrun, hq⟩
        exact ⟨q, ⟨p', hstep, hrun⟩, hq⟩
      · rintro ⟨q, ⟨p', hstep, hrun⟩, hq⟩
        exact ⟨p', hstep, q, hrun, hq⟩

/-- The parser accepts what the grammar derives. -/
theorem accept_isSome_iff : ((Parser.start : Parser F).accept ts).isSome ↔ CfgList ts := by
  rw [Option.isSome_iff_exists]
  constructor
  · rintro ⟨cfg, h⟩
    obtain ⟨q, hrun, hq, -⟩ := Parser.accept_eq_some.mp h
    obtain ⟨es, part, hes, hts, hpart, -⟩ := hasRead_start.run hrun
    rw [hq] at hpart
    obtain rfl : part = [] := hpart
    exact ⟨es, hes, by simpa using hts⟩
  · intro h
    obtain ⟨q, hrun, hq⟩ := h.run (p := Parser.start) rfl
    exact ⟨q.cfg, Parser.accept_eq_some.mpr ⟨q, hrun, hq, rfl⟩⟩

/-! ## Parts of a run -/

/-- The tokens that are read add parameters and take none away. -/
theorem params_of_run (hrun : ts.foldlM Parser.step p = some q) :
    ∃ params, q.cfg.params = p.cfg.params ++ params := by
  induction ts generalizing p with
  | nil =>
      obtain rfl := Option.some.inj hrun
      exact ⟨[], by simp⟩
  | cons t ts ih =>
      rw [List.foldlM_cons] at hrun
      obtain ⟨p₁, hstep, hrun⟩ := Option.bind_eq_some_iff.mp hrun
      obtain ⟨params, hparams⟩ := ih hrun
      have hone : ∃ params, p₁.cfg.params = p.cfg.params ++ params := by
        rcases Parser.step_cases hstep with ⟨_, _, _, rfl⟩ | ⟨_, _, _, rfl⟩ | ⟨_, _, _, rfl⟩ |
          ⟨_, _, _, _, rfl⟩ | ⟨_, _, _, _, rfl⟩ | ⟨_, _, _, rfl⟩ | ⟨_, _, _, rfl⟩
        · exact ⟨[], by simp⟩
        · exact ⟨[], by simp⟩
        · exact ⟨[], by simp⟩
        · exact ⟨_, rfl⟩
        · exact ⟨[], by simp⟩
        · exact ⟨[], by simp⟩
        · exact ⟨_, rfl⟩
      obtain ⟨params₁, hparams₁⟩ := hone
      exact ⟨params₁ ++ params, by rw [hparams, hparams₁, List.append_assoc]⟩

end Config

end Infra
