import Infra.Config.Owned

/-!
# Freeing parameters

`freePValue` frees the blocks of a value, `freeConfigParam` those of a parameter, and
`freeConfig` those of all parameters. Each block is freed once, nothing is read that was freed
before, and the blocks besides are left as they are.
-/

namespace Infra

namespace Config

open LinkedList

namespace Store

variable {F ε : Type} [DecidableEq ε] {s s' : Store F ε} {cfg : ConfigCB F}
  {ps bs other cs es : List ε} {a b p pv arr : ε} {e : Elem F} {v : ParamValue F}
  {q : ConfigParameter F} {elems : List (Elem F)}

/-! ## Loads -/

theorem value_eq {w : ValueBlock F ε} (h : s.load a = some (.value w)) :
    s.value (some a) = some w := by
  simp [value, h]

theorem param_eq {w : ParamBlock ε} (h : s.load a = some (.param w)) :
    s.param (some a) = some w := by
  simp [param, h]

theorem chars_eq {str : CString} (h : s.load a = some (.chars str)) :
    s.chars (some a) = some str := by
  simp [chars, h]

theorem array_eq {size : ℤ} (h : s.load a = some (.array size es)) :
    s.array (some a) = some (size, es) := by
  simp [array, h]

omit [DecidableEq ε] in
theorem ne_of_load {load : ε → Option (Block F ε)} {blk blk' : Block F ε} (ha : load a = some blk)
    (hb : load b = some blk') (hne : blk ≠ blk') : a ≠ b := by
  rintro rfl
  exact hne (Option.some.inj (ha.symm.trans hb))

theorem foldlM_imp {α σ : Type} {f g : σ → α → Option σ} {l : List α} {t t' : σ}
    (hfg : ∀ t x t', f t x = some t' → g t x = some t') (h : l.foldlM f t = some t') :
    l.foldlM g t = some t' := by
  induction l generalizing t with
  | nil => exact h
  | cons x l ih =>
      rw [List.foldlM_cons, Option.bind_eq_bind, Option.bind_eq_some_iff] at h ⊢
      obtain ⟨t₁, ht₁, h⟩ := h
      exact ⟨t₁, hfg _ _ _ ht₁, ih h⟩

/-! ## Values -/

/-- What freeing the blocks of a structure leaves of the others. -/
structure Frees (s s' : Store F ε) (cfg : ConfigCB F) (ps bs other cs : List ε) : Prop where
  holds : Holds s' cfg ps bs other
  calls : s'.calls = s.calls
  load : ∀ b, b ∉ cs → s'.load b = s.load b

theorem freeElem_spec (h : Holds s cfg ps bs (cs ++ other)) (he : HasElem s.load pv e cs) :
    ∃ s', (∀ depth, freePValue (depth + 1) s (some pv) = some s') ∧
      Frees s s' cfg ps bs other cs := by
  obtain ⟨hpv, hm, htag⟩ := he
  obtain ⟨ptype, x⟩ := e
  cases hm with
  | ival | fval =>
      obtain ⟨s', hfree, hholds, hcalls, hload⟩ := h.free
      refine ⟨s', fun depth => ?_, hholds, hcalls, fun b hb => hload b (by simpa using hb)⟩
      cases ptype <;> first | exact htag.elim | simp [freePValue, value_eq hpv, hfree]
  | @sval c str hc =>
      have hne : pv ≠ c := ne_of_load hpv hc nofun
      obtain ⟨s₁, hfree₁, hholds₁, hcalls₁, hload₁⟩ := (h.perm (.swap c pv other)).free
      obtain ⟨s₂, hfree₂, hholds₂, hcalls₂, hload₂⟩ := hholds₁.free
      refine ⟨s₂, fun depth => ?_, hholds₂, hcalls₂.trans hcalls₁, fun b hb => ?_⟩
      · cases ptype <;> first | exact htag.elim | simp [freePValue, value_eq hpv, hfree₁, hfree₂]
      · simp only [List.mem_cons, List.not_mem_nil, or_false, not_or] at hb
        rw [hload₂ b hb.1, hload₁ b hb.2]

/-- The loop of `freePValue` over the elements that are left. -/
theorem freeElems_spec (done : List ε) {rest : List ε} {size : ℤ} {w : ValueBlock F ε}
    (h : Holds s cfg ps bs (cs ++ arr :: pv :: other))
    (hpv : s.load pv = some (.value w)) (hw : w.member = some (.array size (some arr)))
    (harr : s.load arr = some (.array size (done ++ rest)))
    (hes : Each (HasElem s.load) rest elems cs) :
    ∃ s', (∀ depth, (List.range' done.length rest.length).foldlM (fun s i => do
        let elem ← s.elemAt (some pv) i
        freePValue (depth + 1) s (some elem)) s = some s') ∧
      Frees s s' cfg ps bs (arr :: pv :: other) cs := by
  induction rest generalizing s done elems cs with
  | nil =>
      cases hes
      exact ⟨s, fun _ => rfl, h, rfl, fun _ _ => rfl⟩
  | cons x rest ih =>
      cases hes with
      | @cons _ e cs cs' _ elems he hrest =>
          rw [List.append_assoc] at h
          have hnodup := (List.nodup_append'.mp h.nodup).2.1
          have hnotMem : ∀ b ∈ cs' ++ arr :: pv :: other, b ∉ cs := fun b hb hcs =>
            (List.nodup_append'.mp hnodup).2.2 hcs hb
          obtain ⟨s₁, hfree, hf₁⟩ := freeElem_spec h he
          have hload₁ : ∀ b ∈ cs' ++ arr :: pv :: other, s₁.load b = s.load b :=
            fun b hb => hf₁.load b (hnotMem b hb)
          have hpv₁ := (hload₁ pv (by simp)).trans hpv
          have harr₁ := (hload₁ arr (by simp)).trans harr
          have hnext : s₁.load arr = some (.array size ((done ++ [x]) ++ rest)) := by
            rw [harr₁, List.append_assoc, List.singleton_append]
          obtain ⟨s₂, hloop, hf₂⟩ := ih (done ++ [x]) hf₁.holds hpv₁ hnext
            (hrest.imp fun _ _ _ he hsub => he.congr fun b hb =>
              hload₁ b (List.mem_append_left _ (hsub hb)))
          refine ⟨s₂, fun depth => ?_, hf₂.holds, hf₂.calls.trans hf₁.calls, fun b hb => ?_⟩
          · have helem : s.elemAt (some pv) done.length = some x := by
              simp [elemAt, value_eq hpv, hw, array_eq harr]
            have hloop := hloop depth
            rw [List.length_append, List.length_singleton] at hloop
            rw [List.length_cons, List.range'_succ, List.foldlM_cons, helem]
            simp only [Option.bind_eq_bind, Option.bind_some, hfree]
            exact hloop
          · rw [List.mem_append, not_or] at hb
            rw [hf₂.load b hb.2, hf₁.load b hb.1]

theorem freePValue_spec (h : Holds s cfg ps bs (cs ++ other)) (hv : HasValue s.load pv v cs) :
    ∃ s', (∀ depth, freePValue (depth + 2) s (some pv) = some s') ∧
      Frees s s' cfg ps bs other cs := by
  cases hv with
  | scalar he =>
      obtain ⟨s', hfree, hf⟩ := freeElem_spec h he
      exact ⟨s', fun depth => hfree (depth + 1), hf⟩
  | @list arr es cs elems hpv harr hes =>
      obtain ⟨s₁, hloop, hf₁⟩ :=
        freeElems_spec [] (h.perm (perm_pair arr pv cs other).symm) hpv rfl harr hes
      obtain ⟨s₂, hfree₂, hholds₂, hcalls₂, hload₂⟩ := hf₁.holds.free
      obtain ⟨s₃, hfree₃, hholds₃, hcalls₃, hload₃⟩ := hholds₂.free
      refine ⟨s₃, fun depth => ?_, hholds₃, (hcalls₃.trans hcalls₂).trans hf₁.calls, fun b hb => ?_⟩
      · have hloop := hloop depth
        rw [List.length_nil, ← List.range_eq_range', hes.length_eq] at hloop
        rw [freePValue, value_eq hpv]
        simp only [Option.bind_eq_bind, Option.bind_some, Int.toNat_natCast] at hloop ⊢
        simp only [hloop, Option.bind_some, hfree₂, hfree₃]
      · simp only [List.mem_cons, not_or] at hb
        rw [hload₃ b hb.1, hload₂ b hb.2.1, hf₁.load b hb.2.2]

/-! ## Parameters -/

theorem freeConfigParam_spec (h : Holds s cfg ps bs (cs ++ other))
    (hq : HasParam s.load p q cs) :
    ∃ s', (∀ depth, freeConfigParam (depth + 2) s p = some s') ∧
      Frees s s' cfg ps bs other cs := by
  cases hq with
  | @mk nm pv name v cs hp hname hval =>
      have hperm := perm_pair nm p cs other
      have hnodup := (List.nodup_append'.mp (h.perm hperm.symm).nodup).2.1
      have hpcs : p ∉ cs := fun hmem => (List.nodup_append'.mp hnodup).2.2 hmem (by simp)
      obtain ⟨s₁, hfree₁, hf₁⟩ := freePValue_spec (h.perm hperm.symm) hval
      obtain ⟨s₂, hfree₂, hholds₂, hcalls₂, hload₂⟩ := hf₁.holds.free
      obtain ⟨s₃, hfree₃, hholds₃, hcalls₃, hload₃⟩ := hholds₂.free
      refine ⟨s₃, fun depth => ?_, hholds₃, (hcalls₃.trans hcalls₂).trans hf₁.calls, fun b hb => ?_⟩
      · have hp₁ := (hf₁.load p hpcs).trans hp
        simp only [freeConfigParam, param_eq hp, param_eq hp₁, hfree₁, hfree₂, hfree₃,
          Option.bind_eq_bind, Option.bind_some]
      · simp only [List.mem_cons, not_or] at hb
        rw [hload₃ b hb.1, hload₂ b hb.2.1, hf₁.load b hb.2.2]

/-- `list_del` of a parameter; its blocks are then besides the configuration. -/
theorem Holds.unlink {xs ys : List (ConfigParameter F)} (h : Holds s cfg ps bs other)
    (hparams : cfg.params = xs ++ q :: ys) :
    ∃ p bs' cs lists, ps[xs.length]? = some p ∧ listDel s.lists (.block p) = some lists ∧
      HasParam s.load p q cs ∧
      ∀ n, Holds { s with lists := lists, numParams := n } { params := xs ++ ys, numParams := n }
        (ps.eraseIdx xs.length) bs' (cs ++ other) := by
  obtain ⟨ps₁, p, ps₂, bs₁, cs, bs₂, rfl, rfl, h₁, hq, h₂⟩ := (hparams ▸ h.params).split
  have hring : Ring s.lists .parmList (ps₁.map .block ++ .block p :: ps₂.map .block) := by
    simpa using h.ring
  obtain ⟨lists, hdel, hring', -⟩ := hring.listDel_spec
  have herase : (ps₁ ++ p :: ps₂).eraseIdx xs.length = ps₁ ++ ps₂ := by
    rw [← h₁.length_eq]
    simp [List.eraseIdx_append_of_length_le]
  have hused : s.used.Perm (bs₁ ++ bs₂ ++ (cs ++ other)) := by
    refine h.used.trans ?_
    rw [List.append_assoc, List.append_assoc, List.append_assoc]
    exact (List.perm_append_comm_assoc cs bs₂ other).append_left bs₁
  refine ⟨p, bs₁ ++ bs₂, cs, lists, ?_, hdel, hq, fun n => ?_⟩
  · rw [← h₁.length_eq]
    simp
  · rw [herase]
    refine ⟨?_, h₁.append h₂, hused, rfl⟩
    rwa [List.map_append]

/-- The blocks of a parameter that is unlinked are freed. -/
theorem Holds.removed (xs : List (ConfigParameter F)) {ys : List (ConfigParameter F)}
    (h : Holds s cfg ps bs other) (hparams : cfg.params = xs ++ q :: ys) :
    ∃ p bs' lists, ps[xs.length]? = some p ∧ listDel s.lists (.block p) = some lists ∧
      ∀ n, ∃ s', (∀ depth,
          freeConfigParam (depth + 2) { s with lists := lists, numParams := n } p = some s') ∧
        Holds s' { params := xs ++ ys, numParams := n } (ps.eraseIdx xs.length) bs' other ∧
        s'.calls = s.calls ∧ ∀ b ∈ other, s'.load b = s.load b := by
  obtain ⟨p, bs', cs, lists, hp, hdel, hq, hholds⟩ := h.unlink hparams
  refine ⟨p, bs', lists, hp, hdel, fun n => ?_⟩
  obtain ⟨s', hfree, hf⟩ := freeConfigParam_spec (hholds n) hq
  refine ⟨s', hfree, hf.holds, hf.calls, fun b hb => hf.load b fun hcs => ?_⟩
  exact (List.nodup_append'.mp (List.nodup_append'.mp (hholds n).nodup).2.1).2.2 hcs hb

theorem Holds.delParameter {xs ys : List (ConfigParameter F)} (h : Holds s cfg ps bs other)
    (hparams : cfg.params = xs ++ q :: ys) :
    ∃ p s' bs', ps[xs.length]? = some p ∧ (∀ depth, s.delParameter (depth + 2) p = some s') ∧
      Holds s' { params := xs ++ ys, numParams := cfg.numParams - 1 } (ps.eraseIdx xs.length) bs'
        other ∧
      s'.calls = s.calls ∧ ∀ b ∈ other, s'.load b = s.load b := by
  obtain ⟨p, bs', lists, hp, hdel, hfree⟩ := h.removed xs hparams
  obtain ⟨s', hfree, hholds, hcalls, hload⟩ := hfree (cfg.numParams - 1)
  refine ⟨p, s', bs', hp, fun depth => ?_, hholds, hcalls, hload⟩
  rw [Store.delParameter, hdel, h.count]
  exact hfree depth

/-! ## The configuration -/

/-- The loop of `freeConfig`: the parameters that are still linked are held. -/
def Freeing (s₀ : Store F ε) (cfg : ConfigCB F) (other : List ε) (_ todo : List (Link ε))
    (s : Store F ε) : Prop :=
  ∃ params ps bs, todo = ps.map .block ∧ Holds s { cfg with params := params } ps bs other ∧
    s.calls = s₀.calls ∧ ∀ b ∈ other, s.load b = s₀.load b

theorem freeing_step {s₀ : Store F ε} (depth : ℕ) {done todo : List (Link ε)} {pos : Link ε}
    (h : Freeing s₀ cfg other done (pos :: todo) s) :
    ∃ s', freeBody (depth + 2) pos s = some s' ∧ Freeing s₀ cfg other (done ++ [pos]) todo s' := by
  obtain ⟨params, ps, bs, htodo, h, hcalls, hload⟩ := h
  cases ps with
  | nil => cases htodo
  | cons p ps =>
      obtain ⟨rfl, rfl⟩ := List.cons.inj htodo
      cases params with
      | nil => cases h.params
      | cons q params =>
          obtain ⟨p', bs', lists, hp', hdel, hfree⟩ := h.removed [] rfl
          obtain rfl : p = p' := Option.some.inj hp'
          obtain ⟨s', hfree, hholds, hcalls', hload'⟩ := hfree cfg.numParams
          refine ⟨s', ?_, params, ps, bs', rfl, hholds, hcalls'.trans hcalls, fun b hb => ?_⟩
          · rw [freeBody, hdel]
            rw [← h.count] at hfree
            exact hfree depth
          · rw [hload' b hb, hload b hb]

/-- More depth does not change what `freePValue` does. -/
theorem freePValue_succ {depth : ℕ} {ptr : Option ε} (h : freePValue depth s ptr = some s') :
    freePValue (depth + 1) s ptr = some s' := by
  induction depth generalizing s s' ptr with
  | zero => cases h
  | succ depth ih =>
      rw [freePValue] at h ⊢
      simp only [Option.bind_eq_bind, Option.bind_eq_some_iff] at h ⊢
      obtain ⟨w, hw, h⟩ := h
      refine ⟨w, hw, ?_⟩
      split at h
      · next hm => simpa [hm] using h
      · cases h
      · next hm =>
        obtain ⟨s₁, hloop, hfree⟩ := Option.bind_eq_some_iff.mp h
        have hbody : ∀ (t : Store F ε) i t',
            (t.elemAt ptr i).bind (fun elem => freePValue depth t elem) = some t' →
            (t.elemAt ptr i).bind (fun elem => freePValue (depth + 1) t elem) = some t' := by
          intro t i t' ht
          obtain ⟨elem, helem, ht⟩ := Option.bind_eq_some_iff.mp ht
          exact Option.bind_eq_some_iff.mpr ⟨elem, helem, ih ht⟩
        exact Option.bind_eq_some_iff.mpr ⟨s₁, foldlM_imp hbody hloop, hfree⟩
      · cases h
      · next hm => simpa [hm] using h

theorem freeBody_succ {depth : ℕ} {pos : Link ε} (h : freeBody depth pos s = some s') :
    freeBody (depth + 1) pos s = some s' := by
  obtain ⟨lists, hdel, h⟩ := Option.bind_eq_some_iff.mp h
  refine Option.bind_eq_some_iff.mpr ⟨lists, hdel, ?_⟩
  cases pos with
  | parmList | list => cases h
  | block p =>
      obtain ⟨c, hc, h⟩ := Option.bind_eq_some_iff.mp h
      obtain ⟨s₁, hfree, h⟩ := Option.bind_eq_some_iff.mp h
      exact Option.bind_eq_some_iff.mpr
        ⟨c, hc, Option.bind_eq_some_iff.mpr ⟨s₁, freePValue_succ hfree, h⟩⟩

/-- `freeConfig` frees the blocks of all parameters, and no other one. -/
theorem Holds.freeConfig (h : Holds s cfg ps bs other) :
    ∃ s', (∀ depth fuel, ps.length < fuel → s.freeConfig (depth + 2) fuel = some s') ∧
      Holds s' (Config.freeConfig cfg) [] [] other ∧ s'.calls = s.calls ∧
      ∀ b ∈ other, s'.load b = s.load b := by
  have hstart : Freeing s cfg other [] (ps.map .block) s :=
    ⟨cfg.params, ps, bs, rfl, h, rfl, fun _ _ => rfl⟩
  have hwalk : ∀ done todo t, Freeing s cfg other done todo t → Walk t.lists .parmList todo := by
    rintro done todo t ⟨params, ps, bs, rfl, h, -⟩
    exact (Walk.of_ring h.ring).1
  obtain ⟨s', hloop, params, ps', bs', hps, hholds, hcalls, hload⟩ :=
    Ring.listForEachSafe_rule hwalk (fun _ _ _ _ => freeing_step 0) h.ring hstart
      (Nat.lt_succ_self _)
  obtain rfl : ps' = [] := List.map_eq_nil_iff.mp hps.symm
  obtain rfl : params = [] := by
    cases hparams : params with
    | nil => rfl
    | cons q params => cases hparams ▸ hholds.params
  obtain rfl : bs' = [] := by
    cases hholds.params
    rfl
  refine ⟨s', fun depth fuel hfuel => ?_, hholds, hcalls, hload⟩
  induction depth with
  | zero => exact listForEachSafe_mono (by rwa [List.length_map]) hloop
  | succ depth ih => exact listForEachSafe_imp (fun _ _ _ => freeBody_succ) ih

end Store

end Config

end Infra
