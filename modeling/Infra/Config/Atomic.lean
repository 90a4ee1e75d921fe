import Infra.Config.Entries
import Infra.Config.Update

/-!
# An update writes the file once, or not at all

The values are stored in memory one after the other, and the loop is left at the
first name that is not there or that has a list. The file is written after the loop
only, so that none of the values stored before gets into it.
-/

namespace Infra

namespace Config

open Infra.Ascii Multimap

variable {F : Type} {ft : FloatText F} {cfg cfg' : ConfigCB F} {name : CString}
  {p : ConfigParameter F} {a : CString × Arg F} {args : List (CString × Arg F)}

/-- The argument has the type of the parameter that its name finds; for a list there is
no type to ask for. -/
def ArgTyped (cfg : ConfigCB F) (a : CString × Arg F) : Prop :=
  ∀ p, lookupConfig cfg a.1 = some p →
    match p.val.ptype, a.2 with
    | .string, .str _ => True
    | .float, .dbl _ => True
    | .integer, .int _ => True
    | .boolean, .int _ => True
    | .list, _ => True
    | _, _ => False

/-- The name of the argument is not there, or it has a list. -/
def Fails (cfg : ConfigCB F) (a : CString × Arg F) : Prop :=
  ∀ p, lookupConfig cfg a.1 = some p → p.val.ptype = .list

/-- The entries after an update, pair by pair: the first one of each name gets the
value. -/
def updatedEntries (m : List (CString × ParamValue F)) (args : List (CString × Arg F)) :
    List (CString × ParamValue F) :=
  args.foldl (fun m a => modifyFirst a.1 (fun val => { val with payload := a.2.payload }) m) m

theorem entries_storeFirst {payload : Payload F} : entries (storeFirst cfg name payload) =
    modifyFirst name (fun val => { val with payload := payload }) (entries cfg) := by
  obtain ⟨ps, n⟩ := cfg
  simp only [entries, storeFirst]
  induction ps with
  | nil => rfl
  | cons p ps ih =>
      simp only [List.replaceF, List.map_cons, modifyFirst]
      by_cases h : p.name = name
      · simp [h]
      · simp [h, ih]

/-- The types stay, so what an argument asks for stays too. -/
theorem argTyped_storeFirst {payload : Payload F} :
    ArgTyped (storeFirst cfg name payload) a ↔ ArgTyped cfg a := by
  rw [ArgTyped, ArgTyped, lookupConfig_storeFirst]
  cases lookupConfig cfg a.1 with
  | none => simp
  | some p => by_cases h : a.1 = name <;> simp [h]

theorem fails_storeFirst {payload : Payload F} :
    Fails (storeFirst cfg name payload) a ↔ Fails cfg a := by
  rw [Fails, Fails, lookupConfig_storeFirst]
  cases lookupConfig cfg a.1 with
  | none => simp
  | some p => by_cases h : a.1 = name <;> simp [h]

/-- One round of the loop over the arguments. -/
theorem updateParam_spec (hcfg : cfg.Tagged) (ha : ArgTyped cfg a) :
    (Fails cfg a ∧ updateParam cfg a.1 a.2 = some none) ∨
      (¬ Fails cfg a ∧ updateParam cfg a.1 a.2 = some (some (storeFirst cfg a.1 a.2.payload)) ∧
        (storeFirst cfg a.1 a.2.payload).Tagged) := by
  obtain ⟨name, arg⟩ := a
  unfold updateParam
  cases h : lookupConfig cfg name with
  | none =>
      have hfails : Fails cfg (name, arg) := fun p hp => by
        cases h.symm.trans hp
      exact Or.inl ⟨hfails, rfl⟩
  | some p =>
      have harg := ha p h
      have hfails : Fails cfg (name, arg) ↔ p.val.ptype = .list :=
        ⟨fun hf => hf p h, fun hl q hq => by rwa [← Option.some.inj (h.symm.trans hq)]⟩
      rw [hfails]
      have hstore : ∀ {value : Scalar F}, (allocPValue p.val.ptype value).Tagged →
          (storeFirst cfg name (.scalar value)).Tagged := fun hv => hcfg.storeFirst h hv
      cases htype : p.val.ptype with
      | string =>
          obtain ⟨old, hold⟩ := hcfg.sval (fun q hq => by
            rwa [← Option.some.inj (h.symm.trans hq)]) h
          rw [htype] at harg hstore
          cases arg with
          | str s => exact Or.inr ⟨by simp, by simp [htype, hold], hstore trivial⟩
          | _ => exact harg.elim
      | float =>
          rw [htype] at harg hstore
          cases arg with
          | dbl x => exact Or.inr ⟨by simp, by simp [htype], hstore trivial⟩
          | _ => exact harg.elim
      | integer =>
          rw [htype] at harg hstore
          cases arg with
          | int n => exact Or.inr ⟨by simp, by simp [htype], hstore trivial⟩
          | _ => exact harg.elim
      | boolean =>
          rw [htype] at harg hstore
          cases arg with
          | int n => exact Or.inr ⟨by simp, by simp [htype], hstore trivial⟩
          | _ => exact harg.elim
      | list => exact Or.inl ⟨rfl, by cases arg <;> simp [htype]⟩

/-- The loop ends at the first argument that fails, wherever it stands, and else with
every value stored. -/
theorem updateParams_spec (hcfg : cfg.Tagged) (hargs : ∀ a ∈ args, ArgTyped cfg a) :
    ((∃ a ∈ args, Fails cfg a) ∧ updateParams cfg args = some none) ∨
      ((∀ a ∈ args, ¬ Fails cfg a) ∧ ∃ cfg', updateParams cfg args = some (some cfg') ∧
        cfg'.Tagged ∧ entries cfg' = updatedEntries (entries cfg) args ∧
        cfg'.numParams = cfg.numParams) := by
  induction args generalizing cfg with
  | nil => exact Or.inr ⟨by simp, cfg, rfl, hcfg, rfl, rfl⟩
  | cons a args ih =>
      rw [List.forall_mem_cons] at hargs
      rcases updateParam_spec hcfg hargs.1 with ⟨hfails, hstep⟩ | ⟨hok, hstep, htagged⟩
      · exact Or.inl ⟨⟨a, List.mem_cons_self, hfails⟩, by simp [updateParams, hstep]⟩
      · have hrest : updateParams cfg (a :: args) =
            updateParams (storeFirst cfg a.1 a.2.payload) args := by
          simp [updateParams, hstep]
        rw [hrest]
        refine (ih htagged fun b hb => argTyped_storeFirst.mpr (hargs.2 b hb)).imp ?_ ?_
        · rintro ⟨⟨b, hb, hfails⟩, hrun⟩
          exact ⟨⟨b, List.mem_cons_of_mem a hb, fails_storeFirst.mp hfails⟩, hrun⟩
        · rintro ⟨hall, cfg', hrun, htagged', hentries, hnum⟩
          refine ⟨?_, cfg', hrun, htagged', ?_, hnum⟩
          · rw [List.forall_mem_cons]
            exact ⟨hok, fun b hb hfails => hall b hb (fails_storeFirst.mpr hfails)⟩
          · rw [hentries, entries_storeFirst, updatedEntries, updatedEntries, List.foldl_cons]

/-- When the parse ends, an update of a file that is not accepted, or with an argument
that fails anywhere in the list, returns -1 and leaves the file as it is; every other
update writes the configuration in which the first parameter of each name has got its
value, pair by pair. -/
theorem update_all_or_nothing (ft : FloatText F) {fuel : ℕ} {file : Option (List UInt8)} {ret : ℤ}
    (hparse : parseConfig ft fuel file = some (ret, cfg)) (hargs : ∀ a ∈ args, ArgTyped cfg a) :
    ((ret ≠ 0 ∨ ∃ a ∈ args, Fails cfg a) ∧ updateBimCfg ft fuel file args = some (-1, file)) ∨
      ((ret = 0 ∧ ∀ a ∈ args, ¬ Fails cfg a) ∧ ∃ cfg' text,
        entries cfg' = updatedEntries (entries cfg) args ∧ cfg'.numParams = cfg.numParams ∧
          writeConfig ft cfg' = some text ∧
          updateBimCfg ft fuel file args = some (0, some text)) := by
  have hcfg : cfg.Tagged := fun p hp => (parsed_in hparse p hp).2.tagged
  by_cases hret : ret = 0
  · subst hret
    refine (updateParams_spec hcfg hargs).imp ?_ ?_
    · rintro ⟨hfails, hrun⟩
      exact ⟨Or.inr hfails, by simp [updateBimCfg, hparse, hrun]⟩
    · rintro ⟨hok, cfg', hrun, htagged, hentries, hnum⟩
      obtain ⟨text, htext⟩ : ∃ text, writeConfig ft cfg' = some text := htagged.writeConfig
      exact ⟨⟨rfl, hok⟩, cfg', text, hentries, hnum, htext,
        by simp [updateBimCfg, hparse, hrun, htext]⟩
  · exact Or.inl ⟨Or.inl hret, by simp [updateBimCfg, hparse, hret]⟩

section Sample

/-- The name a has a value that is stored, and the name c is not there. -/
def argsAC : List (CString × Arg Unit) := [(nameA, .int 7), (.ofBytes (bytes "c"), .int 1)]

theorem parse_integersAB : parseConfig FloatText.zero 30 (some (bytes "a = 1\nb = 1\n")) =
    some (0, integersAB 1 1) := by decide +kernel

theorem update_all_or_nothing_missing :
    updateBimCfg FloatText.zero 30 (some (bytes "a = 1\nb = 1\n")) argsAC =
      some (-1, some (bytes "a = 1\nb = 1\n")) := by
  have hargs : ∀ a ∈ argsAC, ArgTyped (integersAB 1 1) a := by
    rw [argsAC, List.forall_mem_cons, List.forall_mem_singleton]
    refine ⟨fun p hp => ?_, fun p hp => ?_⟩ <;> cases hp
    trivial
  have hmissing : Fails (integersAB 1 1) (CString.ofBytes (bytes "c"), (.int 1 : Arg Unit)) := by
    intro p hp
    cases hp
  rcases update_all_or_nothing FloatText.zero parse_integersAB hargs with h | h
  · exact h.2
  · exact absurd hmissing (h.1.2 _ (by simp [argsAC]))

end Sample

end Config

end Infra
