import Infra.Config.Extend

/-!
# Lookups and setters on the heap

A name is looked up by a walk along the links, and what a pointer to a parameter points to
is read block by block. Both give what the sequence of the parameters gives, and a setter
writes to the blocks of the one parameter that its name finds.
-/

namespace Infra

namespace Config

open LinkedList

namespace Store

variable {F ε : Type} [DecidableEq ε] {A : Allocator ε} {s s' : Store F ε} {cfg : ConfigCB F}
  {ps bs other cs es as₁ as₂ bs₁ bs₂ : List ε} {b p pv : ε} {e : Elem F} {x : Scalar F}
  {v : ParamValue F} {q q' : ConfigParameter F} {m : Member F ε} {name : CString} {fuel i : ℕ}
  {xs ys : List (ConfigParameter F)} {elems : List (Elem F)}

/-! ## Reading -/

theorem HasScalar.readMember (h : HasScalar s.load m x cs) : s.readMember m = some x := by
  cases h with
  | ival | fval => rfl
  | sval h => simp [Store.readMember, chars_eq h]

theorem HasElem.readElem (h : HasElem s.load pv e cs) : s.readElem pv = some e := by
  cases h with
  | mk h hm _ => simp [Store.readElem, value_eq h, hm.readMember]

theorem mapM_readElem (h : Each (HasElem s.load) es elems cs) :
    es.mapM s.readElem = some elems := by
  induction h with
  | nil => rfl
  | cons he _ ih => simp [he.readElem, ih]

theorem HasValue.readValue (h : HasValue s.load pv v cs) : s.readValue (some pv) = some v := by
  cases h with
  | @scalar e cs h =>
      obtain ⟨ptype, x⟩ := e
      obtain ⟨hpv, hm, -⟩ := h
      have hread := hm.readMember
      cases hm <;> simp [Store.readValue, value_eq hpv, hread, Config.allocPValue]
  | list h harr hes =>
      simp [Store.readValue, value_eq h, array_eq harr, mapM_readElem hes, Config.allocPValueList]

/-- What a pointer to a parameter points to is the parameter. -/
theorem HasParam.readParam (h : HasParam s.load p q cs) : s.readParam p = some q := by
  cases h with
  | mk h hname hval => simp [Store.readParam, param_eq h, chars_eq hname, hval.readValue]

/-! ## Looking up -/

theorem HasParam.nameIs (h : HasParam s.load p q cs) (name : CString) :
    s.nameIs name (.block p) = some (decide (q.name = name)) := by
  cases h with
  | mk h hname _ => simp [Store.nameIs, entryOf, param_eq h, chars_eq hname]

theorem le_of_searchName {k : ℕ} (h : searchName name k xs = some i) : k ≤ i := by
  induction xs generalizing k with
  | nil => cases h
  | cons q xs ih =>
      rw [searchName] at h
      split at h
      · exact (Option.some.inj h).le
      · exact Nat.le_of_succ_le (ih h)

/-- The search finds the first parameter with the name. -/
theorem searchName_first (hq : q.name = name) (hxs : ∀ r ∈ xs, r.name ≠ name) (k : ℕ) :
    searchName name k (xs ++ q :: ys) = some (k + xs.length) := by
  induction xs generalizing k with
  | nil => simp [searchName, hq]
  | cons r xs ih =>
      rw [List.forall_mem_cons] at hxs
      rw [List.cons_append, searchName, if_neg hxs.1, ih hxs.2, List.length_cons, Nat.add_assoc,
        Nat.add_comm 1]

theorem searchName_absent (hxs : ∀ r ∈ xs, r.name ≠ name) (k : ℕ) :
    searchName name k xs = none := by
  induction xs generalizing k with
  | nil => rfl
  | cons r xs ih =>
      rw [List.forall_mem_cons] at hxs
      rw [searchName, if_neg hxs.1, ih hxs.2]

/-- The comparison at a position as a test. -/
def found (s : Store F ε) (name : CString) (pos : Link ε) : Bool :=
  (s.nameIs name pos).getD false

theorem nameIs_eq_found (h : Each (HasParam s.load) ps xs bs) (name : CString) :
    ∀ pos ∈ ps.map Link.block, s.nameIs name pos = some (s.found name pos) := by
  induction h with
  | nil => simp
  | cons hq _ ih =>
      rw [List.map_cons, List.forall_mem_cons]
      exact ⟨by rw [found, hq.nameIs, Option.getD_some], ih⟩

/-- The search in a row of parameters of which the first has the position `k`. -/
theorem find_found (h : Each (HasParam s.load) ps xs bs) (name : CString) (k : ℕ) :
    ((ps.map Link.block).find? (s.found name)).bind entryOf =
      (searchName name k xs).bind fun i => ps[i - k]? := by
  induction h generalizing k with
  | nil => rfl
  | @cons p q _ _ ps xs hq _ ih =>
      rw [List.map_cons, List.find?_cons, found, hq.nameIs, Option.getD_some, searchName]
      by_cases hname : q.name = name
      · simp [hname, entryOf]
      · rw [if_neg hname, decide_eq_false hname, ih (k + 1)]
        refine Option.bind_congr fun i hi => ?_
        obtain ⟨j, rfl⟩ := Nat.exists_eq_add_of_le (le_of_searchName hi)
        rw [Nat.add_sub_cancel_left, Nat.add_assoc, Nat.add_sub_cancel_left, Nat.add_comm 1,
          List.getElem?_cons_succ]

/-- `lookupConfig` returns the pointer to the parameter at the position of the name. -/
theorem Holds.lookupConfig_eq (h : Holds s cfg ps bs other) (name : CString)
    (hfuel : ps.length < fuel) :
    s.lookupConfig fuel name = some ((lookupConfigPtr cfg name).bind (ps[·]?)) := by
  have hfind := h.ring.listFind_eq (nameIs_eq_found h.params name)
    (by rwa [List.length_map] : (ps.map Link.block).length < fuel)
  rw [Store.lookupConfig, hfind, Option.bind_eq_bind, Option.bind_some, find_found h.params name 0]
  rfl

/-- What the union of a value is: its scalar, or the array of a list. -/
theorem HasValue.member (h : HasValue s.load pv v cs) :
    ∃ m, s.load pv = some (.value { ptype := v.ptype, member := some m }) ∧
      ((∃ x cs', v.payload = .scalar x ∧ HasScalar s.load m x cs' ∧
          (allocElem v.ptype x).Tagged ∧ cs = pv :: cs') ∨
        ∃ n ptr elems, v.payload = .array n elems ∧ m = .array n ptr) := by
  cases h with
  | scalar h =>
      obtain ⟨hpv, hm, htag⟩ := h
      exact ⟨_, hpv, .inl ⟨_, _, rfl, hm, htag, rfl⟩⟩
  | list h _ _ => exact ⟨_, h, .inr ⟨_, _, _, rfl, rfl⟩⟩

/-- The first parameter with a name, in memory. -/
theorem Holds.lookup (h : Holds s cfg ps bs other) (hparams : cfg.params = xs ++ q :: ys)
    (hq : q.name = name) (hxs : ∀ r ∈ xs, r.name ≠ name) :
    ∃ as₁ p as₂ bs₁ cs bs₂, ps = as₁ ++ p :: as₂ ∧ bs = bs₁ ++ (cs ++ bs₂) ∧
      (∀ fuel, ps.length < fuel → s.lookupConfig fuel name = some (some p)) ∧
      Each (HasParam s.load) as₁ xs bs₁ ∧ HasParam s.load p q cs ∧
      Each (HasParam s.load) as₂ ys bs₂ := by
  obtain ⟨as₁, p, as₂, bs₁, cs, bs₂, rfl, rfl, h₁, hp, h₂⟩ := (hparams ▸ h.params).split
  refine ⟨as₁, p, as₂, bs₁, cs, bs₂, rfl, rfl, fun fuel hfuel => ?_, h₁, hp, h₂⟩
  rw [h.lookupConfig_eq name hfuel, lookupConfigPtr, hparams, searchName_first hq hxs,
    ← h₁.length_eq]
  simp

theorem lookupConfig_absent (h : Holds s cfg ps bs other)
    (hname : Config.lookupConfig cfg name = none) (hfuel : ps.length < fuel) :
    s.lookupConfig fuel name = some none := by
  rw [h.lookupConfig_eq name hfuel, lookupConfigPtr,
    searchName_absent (lookupConfig_eq_none.mp hname)]
  rfl

/-- The member that a lookup of a value reads. -/
theorem Holds.lookupMember (h : Holds s cfg ps bs other) (name : CString)
    (hfuel : ps.length < fuel) :
    (Config.lookupConfig cfg name = none ∧ s.lookupMember fuel name = some none) ∨
      ∃ q m, Config.lookupConfig cfg name = some q ∧ s.lookupMember fuel name = some (some m) ∧
        ((∃ x cs, q.val.payload = .scalar x ∧ HasScalar s.load m x cs) ∨
          ∃ n ptr elems, q.val.payload = .array n elems ∧ m = .array n ptr) := by
  cases hlookup : Config.lookupConfig cfg name with
  | none => exact .inl ⟨rfl, by simp [Store.lookupMember, lookupConfig_absent h hlookup hfuel]⟩
  | some q =>
      obtain ⟨hq, xs, ys, hparams, hxs⟩ := lookupConfig_eq_some.mp hlookup
      obtain ⟨as₁, p, as₂, bs₁, cs, bs₂, rfl, rfl, hptr, -, hp, -⟩ := h.lookup hparams hq hxs
      obtain ⟨hp, hname, hval⟩ := hp
      obtain ⟨m, hm, hmember⟩ := hval.member
      refine .inr ⟨_, m, rfl, ?_, ?_⟩
      · simp [Store.lookupMember, hptr fuel hfuel, param_eq hp, value_eq hm]
      · rcases hmember with ⟨x, cs', hx, hm', -, -⟩ | hlist
        · exact .inl ⟨x, cs', hx, hm'⟩
        · exact .inr hlist

theorem Holds.lookupInt (h : Holds s cfg ps bs other) {n : BitVec 32}
    (hint : Config.lookupInt cfg name = some n) (hfuel : ps.length < fuel) :
    s.lookupInt fuel name = some n := by
  rw [Config.lookupInt] at hint
  rcases h.lookupMember name hfuel with ⟨hnone, hm⟩ | ⟨q, m, hq, hm, hmember⟩
  · simpa [Store.lookupInt, hm, hnone] using hint
  · rw [hq] at hint
    rcases hmember with ⟨x, cs, hx, hscalar⟩ | ⟨k, ptr, elems, hx, rfl⟩
    · cases hscalar <;> simp_all [Store.lookupInt]
    · simp [hx] at hint

theorem Holds.lookupFloat (h : Holds s cfg ps bs other) {r : Option F}
    (hfloat : Config.lookupFloat cfg name = some r) (hfuel : ps.length < fuel) :
    s.lookupFloat fuel name = some r := by
  rw [Config.lookupFloat] at hfloat
  rcases h.lookupMember name hfuel with ⟨hnone, hm⟩ | ⟨q, m, hq, hm, hmember⟩
  · simpa [Store.lookupFloat, hm, hnone] using hfloat
  · rw [hq] at hfloat
    rcases hmember with ⟨x, cs, hx, hscalar⟩ | ⟨k, ptr, elems, hx, rfl⟩
    · cases hscalar <;> simp_all [Store.lookupFloat]
    · simp [hx] at hfloat

/-- The pointer that `lookupStr` returns is NULL or points to the string. -/
theorem Holds.lookupStr (h : Holds s cfg ps bs other) {r : Option CString}
    (hstr : Config.lookupStr cfg name = some r) (hfuel : ps.length < fuel) :
    ∃ ptr, s.lookupStr fuel name = some ptr ∧ ptr.map (s.chars ∘ some) = r.map some := by
  rw [Config.lookupStr] at hstr
  rcases h.lookupMember name hfuel with ⟨hnone, hm⟩ | ⟨q, m, hq, hm, hmember⟩
  · rw [hnone] at hstr
    cases hstr
    exact ⟨none, by simp [Store.lookupStr, hm], rfl⟩
  · rw [hq] at hstr
    rcases hmember with ⟨x, cs, hx, hscalar⟩ | ⟨k, ptr, elems, hx, rfl⟩
    · cases hscalar with
      | ival | fval => simp [hx] at hstr
      | @sval c str hc =>
          simp only [hx, Option.some.injEq] at hstr
          subst hstr
          exact ⟨some c, by simp [Store.lookupStr, hm], by simp [chars_eq hc]⟩
    · simp [hx] at hstr

/-! ## Pointers to strings -/

/-- What a caller hands to `setParamString`: a string of its own, or what `lookupStr` returns
for a name. -/
inductive StrArg where
  | own (str : CString)
  | lookedUp (name : CString)

/-- The pointer; NULL has no string to copy. -/
def argPtr (fuel : ℕ) (s : Store F ε) : StrArg → Option (CharPtr ε)
  | .own str => some (.own str)
  | .lookedUp name => do
      let ptr ← s.lookupStr fuel name
      let c ← ptr
      some (.block c)

/-- The string, which is not that of the parameter that is set. -/
def argStr (cfg : ConfigCB F) (name : CString) : StrArg → Option CString
  | .own str => some str
  | .lookedUp other => if other = name then none else (Config.lookupStr cfg other).join

/-- A parameter with a scalar, block by block. -/
theorem HasParam.scalar (h : HasParam s.load p q cs) (hx : q.val.payload = .scalar x) :
    ∃ nm pv m cs', s.load p = some (.param { name := some nm, val := some pv }) ∧
      s.load nm = some (.chars q.name) ∧
      s.load pv = some (.value { ptype := q.val.ptype, member := some m }) ∧
      HasScalar s.load m x cs' ∧ (allocElem q.val.ptype x).Tagged ∧ cs = p :: nm :: pv :: cs' := by
  cases h with
  | @mk nm pv name v vbs hp hname hval =>
      obtain ⟨m, hpv, ⟨y, cs', hy, hm, htag, rfl⟩ | ⟨k, ptr, elems, hlist, -⟩⟩ := hval.member
      · obtain rfl : y = x := Payload.scalar.inj (hy.symm.trans hx)
        exact ⟨nm, pv, m, cs', hp, hname, hpv, hm, htag, rfl⟩
      · cases hlist.symm.trans hx

/-- A caller finds its string. -/
theorem Holds.argPtr {value : StrArg} {str : CString} (h : Holds s cfg ps bs other)
    (harg : argStr cfg name value = some str) (hfuel : ps.length < fuel) :
    ∃ ptr, s.argPtr fuel value = some ptr ∧ s.deref ptr = some str := by
  cases value with
  | own str' => exact ⟨.own str', rfl, harg⟩
  | lookedUp other' =>
      have hstr := Option.join_eq_some_iff.mp (Option.ite_none_left_eq_some.mp harg).2
      obtain ⟨ptr, hptr, hread⟩ := h.lookupStr hstr hfuel
      cases ptr with
      | none => cases hread
      | some c => exact ⟨.block c, by simp [Store.argPtr, hptr], Option.some.inj hread⟩

/-! ## Setting -/

/-- A parameter that changes in its place. -/
theorem Holds.modify {cs' : List ε} (h : Holds s cfg (as₁ ++ p :: as₂) (bs₁ ++ (cs ++ bs₂)) other)
    (h₁ : Each (HasParam s.load) as₁ xs bs₁) (h₂ : Each (HasParam s.load) as₂ ys bs₂)
    (hp : HasParam s'.load p q' cs') (hload : ∀ b ∈ bs₁ ++ bs₂, s'.load b = s.load b)
    (hlists : ∀ l ∈ Link.parmList :: (as₁ ++ p :: as₂).map .block, s'.lists l = s.lists l)
    (hused : s'.used.Perm (bs₁ ++ (cs' ++ bs₂) ++ other)) (hcount : s'.numParams = s.numParams) :
    Holds s' { params := xs ++ q' :: ys, numParams := cfg.numParams } (as₁ ++ p :: as₂)
      (bs₁ ++ (cs' ++ bs₂)) other := by
  rw [List.forall_mem_append] at hload
  refine ⟨h.ring.congr hlists, ?_, hused, hcount.trans h.count⟩
  refine (h₁.imp fun _ _ _ hq hsub => hq.congr fun b hb => hload.1 b (hsub hb)).append (.cons hp ?_)
  exact h₂.imp fun _ _ _ hq hsub => hq.congr fun b hb => hload.2 b (hsub hb)

/-- The blocks of one parameter are not those of the others. -/
theorem Holds.apart (h : Holds s cfg ps (bs₁ ++ (cs ++ bs₂)) other) (hb : b ∈ cs) :
    b ∉ bs₁ ++ bs₂ ∧ b ∉ other := by
  have hperm : (bs₁ ++ (cs ++ bs₂) ++ other).Perm (cs ++ (bs₁ ++ bs₂ ++ other)) := by
    rw [List.append_assoc, List.append_assoc, List.append_assoc]
    exact List.perm_append_comm_assoc bs₁ cs _
  have hdisjoint := (List.nodup_append'.mp (hperm.nodup_iff.mp h.nodup)).2.2
  exact ⟨fun hmem => hdisjoint hb (List.mem_append_left _ hmem),
    fun hmem => hdisjoint hb (List.mem_append_right _ hmem)⟩

theorem storeFirst_eq {payload : Payload F} (hparams : cfg.params = xs ++ q :: ys)
    (hq : q.name = name) (hxs : ∀ r ∈ xs, r.name ≠ name) :
    storeFirst cfg name payload =
      { params := xs ++ { q with val := { q.val with payload := payload } } :: ys
        numParams := cfg.numParams } := by
  rw [← storeFirst_append hparams hq hxs]
  rfl

omit [DecidableEq ε] in
/-- A parameter with another scalar in the same blocks. -/
theorem HasParam.withScalar {load : ε → Option (Block F ε)} {nm : ε} {cs' : List ε}
    (hp : load p = some (.param { name := some nm, val := some pv }))
    (hname : load nm = some (.chars q.name))
    (hpv : load pv = some (.value { ptype := q.val.ptype, member := some m }))
    (hm : HasScalar load m x cs') (htag : (allocElem q.val.ptype x).Tagged) :
    HasParam load p { q with val := { q.val with payload := .scalar x } }
      (p :: nm :: pv :: cs') :=
  .mk hp hname (.scalar (.mk hpv hm htag))

/-- A store of a number to the parameter that a name finds. -/
theorem Holds.storeInt (h : Holds s cfg ps bs other) (hparams : cfg.params = xs ++ q :: ys)
    (hq : q.name = name) (hxs : ∀ r ∈ xs, r.name ≠ name) {old : BitVec 32}
    (hold : q.val.payload = .scalar (.ival old)) (n : BitVec 32) :
    ∃ p s', (∀ fuel, ps.length < fuel → s.lookupConfig fuel name = some (some p)) ∧
      s.storeInt p n = some s' ∧
      Leaves s s' (storeFirst cfg name (.scalar (.ival n))) other 0 := by
  obtain ⟨as₁, p, as₂, bs₁, cs, bs₂, rfl, rfl, hptr, h₁, hparam, h₂⟩ := h.lookup hparams hq hxs
  obtain ⟨nm, pv, m, cs', hp, hname, hpv, hm, htag, rfl⟩ := hparam.scalar hold
  cases hm
  have hmem := h.apart (b := pv) (by simp)
  obtain ⟨s', hput, hused, hcalls, hload, hlists, hcount⟩ := put_spec s
    (.value { ptype := q.val.ptype, member := some (.ival n) }) (BlockStore.mem_used hpv)
  have hsame : ∀ b, b ≠ pv → s'.load b = s.load b := fun b hb => by
    rw [hload, Function.update_of_ne hb]
  have hp' := (hsame p (ne_of_load hp hpv nofun)).trans hp
  have hname' := (hsame nm (ne_of_load hname hpv nofun)).trans hname
  have hpv' : s'.load pv = some (.value { ptype := q.val.ptype, member := some (.ival n) }) := by
    rw [hload, Function.update_self]
  have htag' : (allocElem q.val.ptype (.ival n) : Elem F).Tagged := by
    revert htag
    cases q.val.ptype <;> exact id
  rw [storeFirst_eq hparams hq hxs]
  refine ⟨p, s', hptr, by simp [Store.storeInt, param_eq hp, setMember, value_eq hpv, hput],
    ⟨_, _, h.modify h₁ h₂ (.withScalar hp' hname' hpv' .ival htag') (fun b hb => hsame b ?_)
      (fun l _ => by rw [hlists]) (hused.trans h.used) hcount⟩, hcalls, fun b hb => hsame b ?_⟩
  · exact ne_of_mem_of_not_mem hb hmem.1
  · exact ne_of_mem_of_not_mem hb hmem.2

/-- When `setParamString` is handed what `lookupStr` returned for the same name, the string is
freed before it is copied. -/
theorem Holds.setParamString_self (h : Holds s cfg ps bs other)
    (hparams : cfg.params = xs ++ q :: ys) (hq : q.name = name) (hxs : ∀ r ∈ xs, r.name ≠ name)
    {old : CString} (hold : q.val.payload = .scalar (.sval old)) (hfuel : ps.length < fuel) :
    (s.argPtr fuel (.lookedUp name)).bind (fun ptr => s.setParamString A fuel name ptr) = none := by
  obtain ⟨as₁, p, as₂, bs₁, cs, bs₂, rfl, rfl, hptr, -, hparam, -⟩ := h.lookup hparams hq hxs
  obtain ⟨nm, pv, m, cs', hp, -, hpv, hm, -, rfl⟩ := hparam.scalar hold
  cases hm with
  | @sval c _ hc =>
      obtain ⟨s₁, hfree, hused, -⟩ := free_spec (BlockStore.mem_used hc)
      have hgone : s₁.load c = none := by
        refine Option.eq_none_iff_forall_ne_some.mpr fun v hv => ?_
        have hnodup := hused.nodup_iff.mp s.nodup_used
        exact (List.nodup_cons.mp hnodup).1 (BlockStore.mem_used hv)
      simp [Store.argPtr, Store.lookupStr, Store.lookupMember, Store.setParamString,
        hptr fuel hfuel, param_eq hp, value_eq hpv, hfree, deref, chars, hgone]

/-! ## Walks -/

/-- A callback that reads the parameters and puts them in a row. -/
def collect (s : Store F ε) (p : ε) (out : List (ConfigParameter F)) :
    Option (List (ConfigParameter F)) := do
  let q ← s.readParam p
  some (out ++ [q])

theorem HasParam.collect (h : HasParam s.load p q cs) (out : List (ConfigParameter F)) :
    s.collect p out = some (out ++ [q]) := by
  rw [Store.collect, h.readParam]
  rfl

/-- The loop of a caller over the parameters of a name: each is read, and the search goes on
after it. -/
def valuesFrom (fuel : ℕ) (s : Store F ε) (name : CString) :
    ℕ → Option ε → Option (List (ConfigParameter F))
  | 0, _ => none
  | _ + 1, none => some []
  | n + 1, some p => do
      let q ← s.readParam p
      let next ← s.lookupNextConfig fuel p name
      let rest ← valuesFrom fuel s name n next
      some (q :: rest)

/-- The parameters of a name, with `lookupConfig` and `lookupNextConfig`. -/
def values (fuel : ℕ) (s : Store F ε) (name : CString) : Option (List (ConfigParameter F)) := do
  let p ← s.lookupConfig fuel name
  valuesFrom fuel s name fuel p

end Store

end Config

end Infra
