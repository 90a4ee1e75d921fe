import Infra.Config.Access
import Infra.Config.Comments
import Infra.Foundation.Simulation

/-!
# Sessions on the configuration files

The callers of `cfg_util.c` share files. What they get is told by the entries of the
files alone: an update replaces the first entry of each name, and its file is then read
as what the written lines are read as, so a sign is lost, and a value whose text is no
number leaves a file that is not accepted any more. A read gets the first entries, and
the configuration of the system is that of the backup when the file at its place is not
accepted.
-/

namespace Infra

namespace Config

open Infra.Ascii Multimap

variable {F : Type}

/-- What the scanner and the parser make of a file: the scanner does not come to the end
of a comment, the file is not accepted, or it has entries. -/
inductive FileContents (F : Type) where
  | endless
  | refused
  | accepted (m : List (CString × ParamValue F))

/-- A call of one of the functions of `cfg_util.c`. -/
inductive BimCall (F : Type) where
  | update (path : CString) (args : List (CString × Arg F))
  | read (path : CString) (args : List (CString × Dest))
  | openSystem

/-- What the caller gets. An opened configuration is there when 0 is returned. -/
inductive BimAnswer (F : Type) where
  | updated (ret : ℤ)
  | got (ret : ℤ) (vals : List (Arg F))
  | opened (cfg : Option (ConfigCB F))
  deriving DecidableEq

/-- The functions of `cfg_util.c` on the files at the paths. -/
def bimConfig (ft : FloatText F) (fuel : ℕ) :
    Machine (CString → Option (List UInt8)) (BimCall F) (BimAnswer F) where
  step fs
    | .update path args => do
        let (ret, file) ← updateBimCfg ft fuel (fs path) args
        some (Function.update fs path file, .updated ret)
    | .read path args => do
        let (ret, vals) ← readBimCfg ft fuel (fs path) args
        some (fs, .got ret vals)
    | .openSystem => do
        let (ret, cfg) ← openBimSystemCfg ft fuel (fs bimSystemConfigActive)
          (fs bimSystemConfigBackup)
        some (fs, .opened (if ret = 0 then some cfg else none))

/-! ## The entries of the files -/

/-- The parameter of an entry. -/
def ofEntry (e : CString × ParamValue F) : ConfigParameter F := { name := e.1, val := e.2 }

/-- The configuration with the entries. -/
def ofEntries (m : List (CString × ParamValue F)) : ConfigCB F :=
  { params := m.map ofEntry, numParams := m.length }

/-- What the lines of the entries are read as. -/
def reread (ft : FloatText F) (m : List (CString × ParamValue F)) : FileContents F :=
  match (m.map ofEntry).mapM (rereadParam ft) with
  | some ps => .accepted (ps.map fun p => (p.name, p.val))
  | none => .refused

/-- An update of the contents of a file, with the returned value. It asks for the type of
each value, and for lines that are scanned as their values. -/
def FileContents.update (ft : FloatText F) (args : List (CString × Arg F)) :
    FileContents F → Option (FileContents F × ℤ)
  | .endless => none
  | .refused => some (.refused, -1)
  | .accepted m =>
      if ∀ a ∈ args, (value m a.1).all (·.sameType a.2) then
        if ∃ a ∈ args, (value m a.1).isNone then some (.accepted m, -1)
        else if ∀ e ∈ updatedEntries m args, (paramTokens ft (ofEntry e)).isSome then
          some (reread ft (updatedEntries m args), 0)
        else none
      else none

/-- A read of the contents of a file, with the returned value. It asks for a place for each
value. -/
def FileContents.read (args : List (CString × Dest)) : FileContents F → Option (ℤ × List (Arg F))
  | .endless => none
  | .refused => some (-1, [])
  | .accepted m =>
      if ∀ d ∈ args, (value m d.1).all (·.goesTo d.2) then
        some (if args.all fun d => (value m d.1).isSome then 0 else -1,
          ((args.map fun d => value m d.1).takeWhile Option.isSome).reduceOption)
      else none

/-- The contents of a file as a configuration, with those of its backup. -/
def FileContents.opened : FileContents F → FileContents F → Option (Option (ConfigCB F))
  | .endless, _ => none
  | .accepted m, _ => some (some (ofEntries m))
  | .refused, .endless => none
  | .refused, .accepted m => some (some (ofEntries m))
  | .refused, .refused => some none

/-- The functions of `cfg_util.c` on the contents of the files. -/
def bimContents (ft : FloatText F) :
    Machine (CString → FileContents F) (BimCall F) (BimAnswer F) where
  step m
    | .update path args => do
        let (c, ret) ← (m path).update ft args
        some (Function.update m path c, .updated ret)
    | .read path args => do
        let (ret, vals) ← (m path).read args
        some (m, .got ret vals)
    | .openSystem => do
        let cfg ← (m bimSystemConfigActive).opened (m bimSystemConfigBackup)
        some (m, .opened cfg)

/-! ## Files and their contents -/

variable {ft : FloatText F} {file : Option (List UInt8)} {cfg : ConfigCB F}
  {m : List (CString × ParamValue F)} {c c' : FileContents F} {ret : ℤ}
  {args : List (CString × Arg F)}

/-- `parseConfig` returns, however many rounds more it is given. -/
def Parses (ft : FloatText F) (file : Option (List UInt8)) (ret : ℤ) (cfg : ConfigCB F) : Prop :=
  ∃ N, ∀ fuel, N ≤ fuel → parseConfig ft fuel file = some (ret, cfg)

/-- The file has the contents. -/
def Stored (ft : FloatText F) (file : Option (List UInt8)) : FileContents F → Prop
  | .endless => ∀ fuel, parseConfig ft fuel file = none
  | .refused => ∃ cfg, Parses ft file (-1) cfg
  | .accepted m => Parses ft file 0 (ofEntries m)

/-- The files have the contents, path by path. -/
def Holds (ft : FloatText F) (fs : CString → Option (List UInt8))
    (m : CString → FileContents F) : Prop :=
  ∀ path, Stored ft (fs path) (m path)

theorem parses_of_parseConfig {fuel : ℕ} (h : parseConfig ft fuel file = some (ret, cfg)) :
    Parses ft file ret cfg :=
  ⟨fuel, fun _ hle => parseConfig_mono hle h⟩

@[simp] theorem entries_ofEntries : entries (ofEntries m) = m := by
  simp [entries, ofEntries, ofEntry, Function.comp_def]

theorem ofEntries_entries (h : cfg.numParams = cfg.params.length) :
    ofEntries (entries cfg) = cfg := by
  obtain ⟨params, numParams⟩ := cfg
  simpa [ofEntries, entries, ofEntry, Function.comp_def] using h.symm

/-- A configuration that is read has names, and it is counted right. -/
theorem Reads.in_all {s : List UInt8} (h : Reads ft s cfg) : cfg.In Domain.all := by
  obtain ⟨ts, hscan, haccept⟩ := reads_iff.mp h
  have hall : (Domain.quotableIf (0 ∉ s) : Domain F) ≤ Domain.all :=
    ⟨fun _ _ => trivial, fun _ _ => trivial, fun _ _ => trivial⟩
  exact accept_in start_in (fun t ht => (hscan.token_in ht).mono hall) haccept

/-- Every file has contents. -/
theorem exists_stored (ft : FloatText F) (file : Option (List UInt8)) :
    ∃ c, Stored ft file c := by
  by_cases h : ∀ fuel, parseConfig ft fuel file = none
  · exact ⟨.endless, h⟩
  · obtain ⟨fuel, hfuel⟩ := not_forall.mp h
    obtain ⟨⟨ret, cfg⟩, hparse⟩ := Option.ne_none_iff_exists'.mp hfuel
    have hparses := parses_of_parseConfig hparse
    cases file with
    | none =>
        cases hparse
        exact ⟨.refused, _, hparses⟩
    | some s =>
        obtain ⟨⟨q, ok⟩, -, hret⟩ := Option.bind_eq_some_iff.mp hparse
        cases ok with
        | false =>
            cases hret
            exact ⟨.refused, _, hparses⟩
        | true =>
            cases hret
            refine ⟨.accepted (entries q.cfg), ?_⟩
            rw [Stored, ofEntries_entries (Reads.in_all hparses).2]
            exact hparses

/-- Every family of files has contents. -/
theorem exists_holds (ft : FloatText F) (fs : CString → Option (List UInt8)) :
    ∃ m, Holds ft fs m :=
  ⟨fun path => (exists_stored ft (fs path)).choose,
    fun path => (exists_stored ft (fs path)).choose_spec⟩

/-! ## The calls -/

/-- Lines of values are written, and the file then has the contents that they are read
as. -/
theorem stored_written (hname : ∀ e ∈ m, IsIdentifier e.1.bytes)
    (htokens : ∀ e ∈ m, (paramTokens ft (ofEntry e)).isSome) :
    ∃ text, writeConfig ft (ofEntries m) = some text ∧ Stored ft (some text) (reread ft m) := by
  have hlegible : ∀ p ∈ m.map ofEntry, Legible ft p := by
    rw [List.forall_mem_map]
    exact fun e he => ⟨hname e he, htokens e he⟩
  obtain ⟨ts, hts⟩ := exists_paramsTokens hlegible
  obtain ⟨text, htext, hscan⟩ :=
    scans_writeConfig (show ∀ p ∈ (ofEntries m).params, _ from fun p hp => (hlegible p hp).1) hts
  have haccept : (lineStart initConfig).accept ts = _ := accept_parameters hts
  have hparse := hscan.parseConfig (Nat.lt_succ_self (text.length + 1))
  rw [show Parser.start = lineStart initConfig from rfl, haccept] at hparse
  refine ⟨text, htext, ?_⟩
  unfold reread
  cases hread : (m.map ofEntry).mapM (rereadParam ft) with
  | none =>
      rw [hread] at hparse
      obtain ⟨cfg, hparse⟩ := hparse
      exact ⟨cfg, parses_of_parseConfig hparse⟩
  | some ps =>
      rw [hread] at hparse
      have hcfg : ofEntries (ps.map fun p => (p.name, p.val)) =
          { params := (initConfig : ConfigCB F).params ++ ps
            numParams := (initConfig : ConfigCB F).numParams + ps.length } := by
        simp [ofEntries, ofEntry, initConfig, Function.comp_def]
      rw [Stored, hcfg]
      exact parses_of_parseConfig hparse

theorem map_fst_updatedEntries (m : List (CString × ParamValue F))
    (args : List (CString × Arg F)) :
    (updatedEntries m args).map Prod.fst = m.map Prod.fst := by
  have hone : ∀ (name : CString) (f : ParamValue F → ParamValue F)
      (m : List (CString × ParamValue F)), (modifyFirst name f m).map Prod.fst =
        m.map Prod.fst := by
    intro name f m
    induction m with
    | nil => rfl
    | cons e m ih =>
        rw [modifyFirst]
        split
        · rfl
        · rw [List.map_cons, ih, List.map_cons]
  unfold updatedEntries
  induction args generalizing m with
  | nil => rfl
  | cons a args ih => rw [List.foldl_cons, ih, hone]

/-- An update of a file is an update of its contents. -/
theorem updateBimCfg_spec (h : Stored ft file c) (hupdate : c.update ft args = some (c', ret)) :
    ∃ N file', (∀ fuel, N ≤ fuel → updateBimCfg ft fuel file args = some (ret, file')) ∧
      Stored ft file' c' := by
  cases c with
  | endless => cases hupdate
  | refused =>
      cases hupdate
      obtain ⟨cfg, N, hparse⟩ := h
      exact ⟨N, file, fun fuel hle => by simp [updateBimCfg, hparse fuel hle], cfg, N, hparse⟩
  | accepted m =>
      obtain ⟨N, hparse⟩ := h
      have hin := parsed_in (hparse N le_rfl)
      have htagged : (ofEntries m).Tagged := fun p hp => (hin p hp).2.tagged
      simp only [FileContents.update, Option.ite_none_right_eq_some] at hupdate
      obtain ⟨htyped, hupdate⟩ := hupdate
      have hargs : ∀ a ∈ args, ArgTyped (ofEntries m) a := fun a ha =>
        (argTyped_iff htagged).mpr (by simpa using htyped a ha)
      have hfails : ∀ a, Fails (ofEntries m) a ↔ (value m a.1).isNone := fun a => by
        rw [fails_iff htagged, entries_ofEntries, Option.isNone_iff_eq_none]
      rcases updateParams_spec htagged hargs with ⟨hfail, hrun⟩ | ⟨hok, cfg, hrun, -, hcfg, hnum⟩
      · rw [if_pos (by simpa only [hfails] using hfail)] at hupdate
        cases hupdate
        exact ⟨N, file, fun fuel hle => by simp [updateBimCfg, hparse fuel hle, hrun], N, hparse⟩
      · rw [if_neg (by simpa only [hfails, not_exists, not_and] using hok),
          Option.ite_none_right_eq_some] at hupdate
        obtain ⟨htokens, hupdate⟩ := hupdate
        cases hupdate
        rw [entries_ofEntries] at hcfg
        have hname : ∀ e ∈ updatedEntries m args, IsIdentifier e.1.bytes := by
          intro e he
          have hmem : e.1 ∈ (updatedEntries m args).map Prod.fst := List.mem_map_of_mem he
          rw [map_fst_updatedEntries] at hmem
          obtain ⟨e', he', heq⟩ := List.mem_map.mp hmem
          rw [← heq]
          exact (hin (ofEntry e') (List.mem_map_of_mem he')).1.1
        have hlen : cfg.numParams = cfg.params.length := by
          have hkeys : (updatedEntries m args).length = m.length := by
            simpa using congrArg List.length (map_fst_updatedEntries m args)
          rw [hnum, ofEntries, ← hkeys, ← hcfg]
          simp [entries]
        obtain ⟨text, htext, hstored⟩ := stored_written hname htokens
        rw [← hcfg, ofEntries_entries hlen] at htext
        exact ⟨N, some text,
          fun fuel hle => by simp [updateBimCfg, hparse fuel hle, hrun, htext], hstored⟩

/-- A read of a file is a read of its contents. -/
theorem readBimCfg_spec {dests : List (CString × Dest)} {vals : List (Arg F)}
    (h : Stored ft file c) (hread : c.read dests = some (ret, vals)) :
    ∃ N, ∀ fuel, N ≤ fuel → readBimCfg ft fuel file dests = some (ret, vals) := by
  cases c with
  | endless => cases hread
  | refused =>
      cases hread
      obtain ⟨cfg, N, hparse⟩ := h
      exact ⟨N, fun fuel hle => by simp [readBimCfg, hparse fuel hle]⟩
  | accepted m =>
      obtain ⟨N, hparse⟩ := h
      have htagged : (ofEntries m).Tagged := fun p hp =>
        (parsed_in (hparse N le_rfl) p hp).2.tagged
      simp only [FileContents.read, Option.ite_none_right_eq_some, Option.some.injEq,
        Prod.mk.injEq] at hread
      obtain ⟨hdests, rfl, rfl⟩ := hread
      have hgoes : ∀ d ∈ dests, (value (entries (ofEntries m)) d.1).all (·.goesTo d.2) := by
        simpa [entries_ofEntries] using hdests
      have hrun := readParams_eq htagged hgoes
      rw [entries_ofEntries] at hrun
      exact ⟨N, fun fuel hle => by simp [readBimCfg, hparse fuel hle, hrun]⟩

/-- The configuration of the system is that of the contents. -/
theorem openBimSystemCfg_spec {backup : Option (List UInt8)} {b : FileContents F}
    {opened : Option (ConfigCB F)} (h : Stored ft file c) (hb : Stored ft backup b)
    (hopen : c.opened b = some opened) :
    ∃ N ret cfg, (∀ fuel, N ≤ fuel → openBimSystemCfg ft fuel file backup = some (ret, cfg)) ∧
      (if ret = 0 then some cfg else none) = opened := by
  cases c with
  | endless => cases hopen
  | accepted m =>
      cases hopen
      obtain ⟨N, hparse⟩ := h
      exact ⟨N, 0, ofEntries m, fun fuel hle => by simp [openBimSystemCfg, hparse fuel hle], rfl⟩
  | refused =>
      obtain ⟨cfg, N, hparse⟩ := h
      cases b with
      | endless => cases hopen
      | accepted m =>
          cases hopen
          obtain ⟨M, hbackup⟩ := hb
          refine ⟨max N M, 0, ofEntries m, fun fuel hle => ?_, rfl⟩
          simp [openBimSystemCfg, hparse fuel (le_of_max_le_left hle),
            hbackup fuel (le_of_max_le_right hle)]
      | refused =>
          cases hopen
          obtain ⟨cfg', M, hbackup⟩ := hb
          refine ⟨max N M, -1, cfg', fun fuel hle => ?_, rfl⟩
          simp [openBimSystemCfg, hparse fuel (le_of_max_le_left hle),
            hbackup fuel (le_of_max_le_right hle)]

/-! ## Sessions -/

theorem Holds.update {fs : CString → Option (List UInt8)} {ms : CString → FileContents F}
    {path : CString} (h : Holds ft fs ms) (hfile : Stored ft file c) :
    Holds ft (Function.update fs path file) (Function.update ms path c) := by
  intro other
  by_cases hpath : other = path
  · subst hpath
    simpa using hfile
  · simpa [hpath] using h other

/-- The functions on the files simulate those on the contents. -/
theorem bimConfig_simulates (ft : FloatText F) :
    Machine.SimulatesEventually (bimConfig ft) (bimContents ft) (Holds ft) where
  step := by
    intro fs ms call ms' o h hstep
    cases call with
    | update path args =>
        obtain ⟨⟨c, ret⟩, hupdate, hstep⟩ := Option.bind_eq_some_iff.mp hstep
        cases hstep
        obtain ⟨N, file, hrun, hfile⟩ := updateBimCfg_spec (h path) hupdate
        exact ⟨N, Function.update fs path file,
          fun fuel hle => by simp [bimConfig, hrun fuel hle], h.update hfile⟩
    | read path args =>
        obtain ⟨⟨ret, vals⟩, hread, hstep⟩ := Option.bind_eq_some_iff.mp hstep
        cases hstep
        obtain ⟨N, hrun⟩ := readBimCfg_spec (h path) hread
        exact ⟨N, fs, fun fuel hle => by simp [bimConfig, hrun fuel hle], h⟩
    | openSystem =>
        obtain ⟨opened, hopen, hstep⟩ := Option.bind_eq_some_iff.mp hstep
        cases hstep
        obtain ⟨N, ret, cfg, hrun, hcfg⟩ := openBimSystemCfg_spec (h _) (h _) hopen
        exact ⟨N, fs, fun fuel hle => by simp [bimConfig, hrun fuel hle, hcfg], h⟩

/-- Every session that the contents of the files allow is answered by the functions on the
files as by those on the contents: they come to an end, with these answers, and leave files
with these contents. -/
theorem bimConfig_run (ft : FloatText F) {fs : CString → Option (List UInt8)}
    {ms ms' : CString → FileContents F} {calls : List (BimCall F)} {os : List (BimAnswer F)}
    (h : Holds ft fs ms) (hrun : (bimContents ft).run ms calls = some (ms', os)) :
    ∃ N fs', (∀ fuel, N ≤ fuel → (bimConfig ft fuel).run fs calls = some (fs', os)) ∧
      Holds ft fs' ms' :=
  (bimConfig_simulates ft).run h hrun

section Sample

/-- A backup with two integers, and no other file. -/
def backupOnly (path : CString) : Option (List UInt8) :=
  if path = bimSystemConfigBackup then some (bytes "a = 1\nb = 1\n") else none

/-- The backup is opened, changed and read, and opened again. -/
def backupCalls : List (BimCall Unit) :=
  [.openSystem, .update bimSystemConfigBackup [(.ofBytes (bytes "b"), .int (-7))],
    .read bimSystemConfigBackup
      [(.ofBytes (bytes "b"), .int), (.ofBytes (bytes "c"), .int), (nameA, .int)],
    .update bimSystemConfigActive [(nameA, .int 2)], .openSystem]

/-- The sign is lost, the name c is not there, and there is no active file. -/
theorem bimConfig_run_backup : ∃ N fs', ∀ fuel, N ≤ fuel →
    (bimConfig FloatText.zero fuel).run backupOnly backupCalls =
      some (fs', [.opened (some (integersAB 1 1)), .updated 0, .got (-1) [.int 7], .updated (-1),
        .opened (some (integersAB 1 7))]) := by
  have hholds : Holds FloatText.zero backupOnly fun path =>
      if path = bimSystemConfigBackup then .accepted (entries (integersAB 1 1)) else .refused := by
    intro path
    unfold backupOnly
    by_cases hpath : path = bimSystemConfigBackup
    · simp only [if_pos hpath]
      exact parses_of_parseConfig parse_integersAB
    · simp only [if_neg hpath]
      exact ⟨initConfig, 0, fun _ _ => rfl⟩
  have hanswers : ((bimContents FloatText.zero).run (fun path =>
      if path = bimSystemConfigBackup then .accepted (entries (integersAB 1 1)) else .refused)
      backupCalls).map Prod.snd = some [.opened (some (integersAB 1 1)), .updated 0,
        .got (-1) [.int 7], .updated (-1), .opened (some (integersAB 1 7))] := by
    decide +kernel
  obtain ⟨⟨ms', os⟩, hrun, rfl⟩ := Option.map_eq_some_iff.mp hanswers
  obtain ⟨N, fs', hfs, -⟩ := bimConfig_run FloatText.zero hholds hrun
  exact ⟨N, fs', hfs⟩

end Sample

end Config

end Infra
