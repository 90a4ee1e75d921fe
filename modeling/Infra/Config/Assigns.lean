import Infra.Config.Grammar

/-!
# The parameters that tokens assign

What a file says, with no parser: a sequence of assignments stands for its parameters, in the
order of the file, and a list for its elements between the brackets. The parser makes just
this of the tokens, where they are such a sequence, and refuses all others.
-/

namespace Infra

namespace Config

variable {F : Type} {p : Parser F} {t : Token F} {ts seq : List (Token F)} {e : Elem F}
  {elems : List (Elem F)} {params : List (ConfigParameter F)} {name : CString}

/-- The scalars with commas between them, one at least. -/
inductive Separated : List (Token F) → List (Elem F) → Prop
  | single {t : Token F} {e : Elem F} (h : unitValue t = some e) : Separated [t] [e]
  | cons {t : Token F} {e : Elem F} {ts : List (Token F)} {elems : List (Elem F)}
      (h : unitValue t = some e) (hrest : Separated ts elems) :
      Separated (t :: .comma :: ts) (e :: elems)

/-- The tokens are assignments, of these values to these names. -/
inductive Assigns : List (Token F) → List (ConfigParameter F) → Prop
  | nil : Assigns [] []
  | scalar {t : Token F} {e : Elem F} {ts : List (Token F)} {params : List (ConfigParameter F)}
      (name : CString) (h : unitValue t = some e) (hrest : Assigns ts params) :
      Assigns (.parameter name :: .assignment :: t :: ts)
        ({ name := name, val := allocPValue e.ptype e.value } :: params)
  | list {seq ts : List (Token F)} {elems : List (Elem F)} {params : List (ConfigParameter F)}
      (name : CString) (h : Separated seq elems) (hrest : Assigns ts params) :
      Assigns (.parameter name :: .assignment :: .listOpen :: (seq ++ .listClose :: ts))
        ({ name := name, val := allocPValueList elems } :: params)

/-- The elements gather in `_g_list`, in their order. -/
theorem Separated.run (h : Separated seq elems) (hp : p.expect = .element name) :
    seq.foldlM Parser.step p =
      some { p with expect := .separator name, gList := p.gList ++ elems } := by
  have hunit : ∀ {p : Parser F} {t : Token F} {e : Elem F}, p.expect = .element name →
      unitValue t = some e →
        p.step t = some { p with expect := .separator name, gList := p.gList ++ [e] } := by
    intro p t e hp ht
    simp [Parser.step, hp, ht]
  induction h generalizing p with
  | single h => simp [hunit hp h]
  | @cons t e ts elems h _ ih =>
      have hrest :=
        ih (p := { p with expect := .element name, gList := p.gList ++ [e] }) rfl
      rw [List.append_assoc] at hrest
      rw [List.foldlM_cons, hunit hp h]
      exact hrest

theorem accept_append {q : Parser F} (h : seq.foldlM Parser.step p = some q) :
    p.accept (seq ++ ts) = q.accept ts := by
  induction seq generalizing p with
  | nil =>
      cases h
      rfl
  | cons t seq ih =>
      rw [List.foldlM_cons] at h
      obtain ⟨p', hstep, hrest⟩ := Option.bind_eq_some_iff.mp h
      rw [List.cons_append, Parser.accept, hstep, Option.bind_eq_bind, Option.bind_some, ih hrest]

/-- The parser adds the parameters that the tokens assign. -/
theorem Assigns.accept (h : Assigns ts params) (hp : p.expect = .expression) :
    p.accept ts = some
      { params := p.cfg.params ++ params, numParams := p.cfg.numParams + params.length } := by
  have hnext : ∀ {q : Parser F} {val : ParamValue F} {name : CString}
      {params : List (ConfigParameter F)} {cfg : ConfigCB F},
      q.cfg = addConfigParam cfg name val →
        ({ params := q.cfg.params ++ params, numParams := q.cfg.numParams + params.length } :
            ConfigCB F) =
          { params := cfg.params ++ { name := name, val := val } :: params,
            numParams := cfg.numParams + ({ name := name, val := val } :: params).length } := by
    intro q val name params cfg hq
    rw [hq, addConfigParam, addParameter, List.append_assoc, List.singleton_append,
      List.length_cons, Nat.cast_add, Nat.cast_one, add_assoc, add_comm (1 : BitVec 32)]
  induction h generalizing p with
  | nil => simp [Parser.accept, hp]
  | @scalar t e ts params name h _ ih =>
      have hne := unitValue_ne_listOpen (Option.isSome_iff_exists.mpr ⟨e, h⟩)
      have hread : [.parameter name, .assignment, t].foldlM Parser.step p = some
          { p with expect := .expression,
                   cfg := addConfigParam p.cfg name (allocPValue e.ptype e.value) } := by
        simp [Parser.step, hp, h]
      exact (accept_append hread).trans ((ih rfl).trans (congrArg some (hnext rfl)))
  | @list seq ts elems params name h _ ih =>
      have hopen : [.parameter name, .assignment, .listOpen].foldlM Parser.step p =
          some { p with expect := .element name, gList := [] } := by
        simp [Parser.step, hp]
      have hclose : (seq ++ [Token.listClose]).foldlM Parser.step
          { p with expect := .element name, gList := [] } = some
            { expect := .expression, cfg := addConfigParam p.cfg name (allocPValueList elems),
              gList := [] } := by
        rw [List.foldlM_append, h.run rfl]
        rfl
      have hsplit : seq ++ Token.listClose :: ts = (seq ++ [Token.listClose]) ++ ts := by simp
      rw [hsplit]
      exact (accept_append hopen).trans
        ((accept_append hclose).trans ((ih rfl).trans (congrArg some (hnext rfl))))

/-- What the grammar derives assigns some parameters. -/
theorem ValueSequence.separated (h : ValueSequence seq) : ∃ elems, Separated seq elems := by
  induction h with
  | unit hv =>
      obtain ⟨e, he⟩ := Option.isSome_iff_exists.mp hv
      exact ⟨[e], .single he⟩
  | cons hv _ ih =>
      obtain ⟨e, he⟩ := Option.isSome_iff_exists.mp hv
      obtain ⟨elems, hrest⟩ := ih
      exact ⟨e :: elems, .cons he hrest⟩

theorem CfgList.assigns (h : CfgList ts) : ∃ params, Assigns ts params := by
  obtain ⟨es, hes, rfl⟩ := h
  induction es with
  | nil => exact ⟨[], .nil⟩
  | cons e es ih =>
      rw [List.forall_mem_cons] at hes
      obtain ⟨params, hrest⟩ := ih hes.2
      rw [List.flatten_cons]
      cases hes.1 with
      | unit name hv =>
          obtain ⟨e, he⟩ := Option.isSome_iff_exists.mp hv
          exact ⟨_, .scalar name he hrest⟩
      | list name hseq =>
          obtain ⟨elems, helems⟩ := hseq.separated
          have hlist := Assigns.list name helems hrest
          refine ⟨{ name := name, val := allocPValueList elems } :: params, ?_⟩
          rw [List.cons_append, List.cons_append, List.cons_append, List.append_assoc]
          exact hlist

/-- The parser accepts the tokens that are assignments, with their parameters. -/
theorem accept_eq_some_iff {cfg : ConfigCB F} : Parser.start.accept ts = some cfg ↔
    ∃ params, Assigns ts params ∧ cfg = { params := params, numParams := params.length } := by
  have hbuilds : ∀ {params : List (ConfigParameter F)}, Assigns ts params →
      Parser.start.accept ts = some { params := params, numParams := params.length } := by
    intro params h
    have haccept := h.accept (p := .start) rfl
    simpa [Parser.start, initConfig] using haccept
  constructor
  · intro h
    obtain ⟨params, hassigns⟩ :=
      (accept_isSome_iff.mp (Option.isSome_iff_exists.mpr ⟨cfg, h⟩)).assigns
    rw [hbuilds hassigns] at h
    exact ⟨params, hassigns, (Option.some.inj h).symm⟩
  · rintro ⟨params, hassigns, rfl⟩
    exact hbuilds hassigns

/-- A file is read as the parameters that its tokens assign. -/
theorem Scans.reads_iff_assigns {ft : FloatText F} {s : List UInt8} {cfg : ConfigCB F}
    (h : Scans ft s ts) : Reads ft s cfg ↔
      ∃ params, Assigns ts params ∧ cfg = { params := params, numParams := params.length } := by
  rw [h.reads_iff, accept_eq_some_iff]

end Config

end Infra
