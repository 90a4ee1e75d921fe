import Infra.Config.Consult
import Infra.Foundation.Simulation

/-!
# The life of a configuration on the heap

Runs of the functions of `cfg_loader.c` from a configuration in memory, with any allocator
that does not give out what is in use. They are answered as the sequence of the parameters
answers them, and between two calls the blocks that are in use are those of the parameters,
and the ones that were in use besides. So no block is lost, none is freed twice, and nothing
is read after it was freed.

`malloc` may refuse the block of a new parameter, and then the call has no effect. Where it
refuses another one the code stores NULL in the list, and there the run ends.

The string for `setParamString` may be one that `lookupStr` found. It may not be that of the
parameter that is set, which is freed before it is copied.
-/

namespace Infra

namespace Config

open Infra.Ascii LinkedList

namespace Store

/-- A call, with what the caller does around it. -/
inductive Request (F : Type) where
  | addIntegerValue (name : CString) (value : BitVec 32)
  | addStringValue (name str : CString)
  | addFloatValue (name : CString) (value : F)
  | addBoolValue (name : CString) (value : BitVec 32)
  | addListValue (name : CString) (args : List (ListArg F))
  | addConfigParam (name : CString) (arg : ListArg F)
  | setParamString (name : CString) (value : StrArg)
  | setParamInteger (name : CString) (value : BitVec 32)
  | setParamBool (name : CString) (value : BitVec 32)
  | delParameter (name : CString) (n : ℕ)
  | lookupInt (name : CString)
  | lookupStr (name : CString)
  | lookupFloat (name : CString)
  | values (name : CString)
  | iterateOverCfg
  | iterateOverName (name : CString)
  | writeConfig
  | freeConfig

/-- What the caller gets to know. -/
inductive Answer (F : Type) where
  | done
  | int (n : BitVec 32)
  | str (s : Option CString)
  | float (x : Option F)
  | params (qs : List (ConfigParameter F))
  | text (bytes : List UInt8)
  deriving DecidableEq

variable {F ε : Type} [DecidableEq ε]

/-- A parameter is added when all its blocks are granted; nothing happens when its own one is
refused, which is the one with the number `i`. -/
def adds (A : Allocator ε) (t : ConfigCB F × ℕ) (i : ℕ) (name : CString) (v : ParamValue F) :
    Option (ConfigCB F × ℕ) :=
  if A.refuses (t.2 + i) then some (t.1, t.2 + i + 1)
  else if ∀ j < 2 + valueBlocks v, A.refuses (t.2 + j) = false then
    some (Config.addParameter t.1 { name := name, val := v }, t.2 + (2 + valueBlocks v))
  else none

/-- The configuration is in memory after a number of calls of `malloc`, and the other blocks
are as they were at first. -/
structure Keeps (kept : ε → Option (Block F ε)) (other : List ε) (s : Store F ε)
    (t : ConfigCB F × ℕ) : Prop where
  holds : ∃ ps bs, Holds s t.1 ps bs other
  calls : s.calls = t.2
  load : ∀ b ∈ other, s.load b = kept b

/-- With rounds enough, the same result. -/
def Settles {α : Type} (run : ℕ → Option α) (Q : α → Prop) : Prop :=
  ∃ N a, (∀ fuel, N ≤ fuel → run fuel = some a) ∧ Q a

variable {A : Allocator ε} {ft : FloatText F} {s s' : Store F ε} {t t' : ConfigCB F × ℕ}
  {kept : ε → Option (Block F ε)} {other : List ε} {run : ℕ → Option (Store F ε)} {i n : ℕ}
  {name str : CString} {v : ParamValue F}

theorem Keeps.leaves (k : Keeps kept other s t) {cfg : ConfigCB F}
    (h : Leaves s s' cfg other n) : Keeps kept other s' (cfg, t.2 + n) where
  holds := h.holds
  calls := by rw [h.calls, k.calls]
  load b hb := (h.load b hb).trans (k.load b hb)

omit [DecidableEq ε] in
theorem Settles.intro {Q : Store F ε → Prop} {r : Option (Store F ε)}
    (h : ∃ s', r = some s' ∧ Q s') : Settles (fun _ => r) Q := by
  obtain ⟨s', hr, hQ⟩ := h
  exact ⟨0, s', fun _ _ => hr, hQ⟩

/-- What a call does that adds a parameter. -/
theorem Keeps.adds (k : Keeps kept other s t) (h : adds A t i name v = some t')
    (hrefused : A.refuses (s.calls + i) = true →
      Settles run fun s' => Leaves s s' t.1 other (i + 1))
    (hgranted : Grants A s.calls (2 + valueBlocks v) → Settles run fun s' =>
      Leaves s s' (Config.addParameter t.1 { name := name, val := v }) other (2 + valueBlocks v)) :
    Settles run fun s' => Keeps kept other s' t' := by
  rw [Store.adds, ← k.calls] at h
  split at h
  · next hA =>
    obtain ⟨N, s', hrun, hleaves⟩ := hrefused hA
    cases h
    refine ⟨N, s', hrun, ?_⟩
    rw [k.calls, Nat.add_assoc]
    exact k.leaves hleaves
  · split at h
    · next hA =>
      obtain ⟨N, s', hrun, hleaves⟩ := hgranted hA
      cases h
      refine ⟨N, s', hrun, ?_⟩
      rw [k.calls]
      exact k.leaves hleaves
    · cases h

theorem Keeps.addValue (k : Keeps kept other s t) {type : ParamType} {m : Member F ε}
    {x : Scalar F} (hm : HasScalar s.load m x []) (htag : (allocElem type x).Tagged)
    (h : Store.adds A t 0 name (Config.allocPValue type x) = some t') :
    Settles (fun _ => s.addValue A name type m) fun s' => Keeps kept other s' t' := by
  obtain ⟨ps, bs, hholds⟩ := k.holds
  have hblocks : 2 + valueBlocks (Config.allocPValue type x) = 3 := by
    cases hm <;> rfl
  refine k.adds h (fun hA => .intro (hholds.addValue_refused name type m hA)) fun hA => ?_
  rw [hblocks] at hA ⊢
  exact .intro (hholds.addValue hm htag name hA)

theorem Keeps.addStringValue (k : Keeps kept other s t)
    (h : Store.adds A t 1 name (Config.allocPValue .string (.sval str)) = some t') :
    Settles (fun _ => s.addStringValue A name str) fun s' => Keeps kept other s' t' := by
  obtain ⟨ps, bs, hholds⟩ := k.holds
  refine k.adds h (fun hA => .intro (hholds.addStringValue_refused name str hA)) fun hA => ?_
  exact .intro (hholds.addStringValue name str hA)

theorem valueBlocks_args (args : List (ListArg F)) :
    2 + valueBlocks (Config.allocPValueList (args.map ListArg.elem)) = 4 + argsBlocks args := by
  simp only [valueBlocks, Config.allocPValueList, argsBlocks, List.map_map, Function.comp_def]
  omega

theorem Keeps.addListValue (k : Keeps kept other s t) {args : List (ListArg F)}
    (h : Store.adds A t 0 name (Config.allocPValueList (args.map ListArg.elem)) = some t') :
    Settles (fun fuel => s.addListValue A fuel name args) fun s' => Keeps kept other s' t' := by
  obtain ⟨ps, bs, hholds⟩ := k.holds
  refine k.adds h (fun hA => ?_) fun hA => ?_
  · obtain ⟨s', hrun, hleaves⟩ := hholds.addListValue_refused name args hA
    exact ⟨0, s', fun fuel _ => hrun fuel, hleaves⟩
  · rw [valueBlocks_args] at hA ⊢
    exact hholds.addListValue name args hA

section Steps

variable {o : Answer F}

/-- A call that changes the configuration, as a step. -/
theorem Settles.step (next : Option (ConfigCB F × ℕ))
    (hstep : next.map (·, Answer.done) = some (t', o))
    (h : ∀ t', next = some t' → Settles run fun s' => Keeps kept other s' t') :
    ∃ N s', (∀ fuel, N ≤ fuel → (run fuel).map (·, Answer.done) = some (s', o)) ∧
      Keeps kept other s' t' := by
  obtain ⟨t₁, hnext, heq⟩ := Option.map_eq_some_iff.mp hstep
  cases heq
  obtain ⟨N, s', hrun, hkeeps⟩ := h _ hnext
  exact ⟨N, s', fun fuel hfuel => by rw [hrun fuel hfuel]; rfl, hkeeps⟩

/-- A call that only reads, as a step. -/
theorem Keeps.step {α : Type} (k : Keeps kept other s t) {answer : α → Answer F}
    (next : Option α) {read : ℕ → Option α}
    (hstep : next.map (fun a => (t, answer a)) = some (t', o))
    (h : ∀ a, next = some a → ∃ N, ∀ fuel, N ≤ fuel → read fuel = some a) :
    ∃ N s', (∀ fuel, N ≤ fuel → (read fuel).map (fun a => (s, answer a)) = some (s', o)) ∧
      Keeps kept other s' t' := by
  obtain ⟨a, hnext, heq⟩ := Option.map_eq_some_iff.mp hstep
  cases heq
  obtain ⟨N, hread⟩ := h _ hnext
  exact ⟨N, s, fun fuel hfuel => by rw [hread fuel hfuel]; rfl, k⟩

end Steps

section Sample

theorem le_foldr_max {b : ℕ} {used : List ℕ} (hb : b ∈ used) : b ≤ used.foldr max 0 := by
  induction used with
  | nil => cases hb
  | cons a used ih =>
      rw [List.foldr_cons]
      rcases List.mem_cons.mp hb with rfl | hb
      · exact le_max_left _ _
      · exact (ih hb).trans (le_max_right _ _)

/-- An allocator that gives out the block above the ones in use, and refuses some calls. -/
def above (refused : List ℕ) : Allocator ℕ where
  refuses n := decide (n ∈ refused)
  block _ used := used.foldr max 0 + 1
  fresh _ _ hmem := Nat.not_succ_le_self _ (le_foldr_max hmem)

end Sample

end Store

end Config

end Infra
