import Infra.Foundation.LastOf
import Infra.Log.Basic

/-!
# The log answers by its history

What a call does is told by the calls before it. The level is the one that was set last,
a bit of the flags is on when the last call that touched it turned it on, and a file is
the one that was set last, or `stderr` when that was NULL and a message has come since.
So a message changes what `logGetErrorFile` returns, from `stdout` to `stderr`.
-/

namespace Infra

namespace Log

variable {φ : Type}

/-- The level that a call sets. -/
def Call.level? : Call φ → Option ℤ
  | .setLevel level => some level
  | _ => none

/-- Whether a call turns the bit on or off. -/
def Call.switches? (i : ℕ) : Call φ → Option Bool
  | .setFlags newFlags => if newFlags.getLsbD i then some true else none
  | .clearFlags newFlags => if newFlags.getLsbD i then some false else none
  | _ => none

/-- The file for errors that a call sets. -/
def Call.errorFile? : Call φ → Option (Option φ)
  | .setErrorFile f => some f
  | _ => none

/-- The file for messages that a call sets. -/
def Call.messageFile? : Call φ → Option (Option φ)
  | .setMessageFile f => some f
  | _ => none

/-- Whether a call is a message, or sets the file. -/
def Call.messages? (file? : Call φ → Option (Option φ)) (call : Call φ) : Option Bool :=
  match call with
  | .message .. => some true
  | call => (file? call).map fun _ => false

/-- The level from which on messages are logged. -/
def levelOf (h : List (Call φ)) : ℤ := (lastOf Call.level? h).getD messDebug

/-- A bit of the flags. -/
def flagOf (i : ℕ) (h : List (Call φ)) : Bool := (lastOf (Call.switches? i) h).getD false

/-- A file: the one that was set last, and else `stderr` when a message has come since. -/
def fileOf (std : Std φ) (file? : Call φ → Option (Option φ)) (h : List (Call φ)) : Option φ :=
  (lastOf file? h).join.or
    (if lastOf (Call.messages? file?) h = some true then some std.stderr else none)

/-- The answer to a call after a history. -/
def answer (std : Std φ) (h : List (Call φ)) : Call φ → Answer φ
  | .getErrorFile => .file (some ((fileOf std Call.errorFile? h).getD std.stdout))
  | .getMessageFile => .file (fileOf std Call.messageFile? h)
  | .message level text now =>
      if level < levelOf h then .logged none .returns
      else
        let file := if toMessageFile level then (lastOf Call.messageFile? h).join
          else (lastOf Call.errorFile? h).join
        let times := if flagOf logTimes h then formatLong now ++ Ascii.bytes ":" else []
        .logged (some (file.getD std.stderr, times ++ text))
          (if level = messCrash then .crash else if level = messFatal then .exit 1 else .returns)
  | _ => .done

/-- The process goes on after an answer. -/
def Answer.goesOn : Answer φ → Bool
  | .logged _ ending => ending = .returns
  | _ => true

/-- The calls of a process, as long as it has not ended. -/
def history (std : Std φ) : Machine (Option (List (Call φ))) (Call φ) (Answer φ) where
  step
    | none, _ => none
    | some h, call =>
        some (if (answer std h call).goesOn then some (h ++ [call]) else none,
          answer std h call)

/-- The static variables hold what the history says. -/
structure Holds (std : Std φ) (g : Globals φ) (h : List (Call φ)) : Prop where
  level : g.logLevel = levelOf h
  flags : ∀ i, g.flags.getLsbD i = flagOf i h
  errorFile : g.errorFile = fileOf std Call.errorFile? h
  messageFile : g.messageFile = fileOf std Call.messageFile? h

theorem holds_start (std : Std φ) : Holds std start [] where
  level := rfl
  flags i := by simp [start, flagOf]
  errorFile := rfl
  messageFile := rfl

/-- What the state of a process is after a history, when the process has not ended. -/
def Follows (std : Std φ) : Option (Globals φ) → Option (List (Call φ)) → Prop
  | some g, some h => Holds std g h
  | none, none => True
  | _, _ => False

variable {std : Std φ} {g : Globals φ} {h : List (Call φ)}

theorem getD_or {α : Type} {o o' : Option α} {a : α} : (o.or o').getD a = o.getD (o'.getD a) := by
  cases o <;> rfl

theorem fileOf_concat {file? : Call φ → Option (Option φ)} {call : Call φ}
    (hcall : call.messages? file? = (file? call).map fun _ => false) :
    fileOf std file? (h ++ [call]) = (file? call).getD (fileOf std file? h) := by
  unfold fileOf
  rw [lastOf_concat, lastOf_concat, hcall]
  cases file? call with
  | none => rfl
  | some f => simp

/-- A message puts `stderr` in the place of NULL. -/
theorem fileOf_message (file? : Call φ → Option (Option φ)) {level now : ℤ} {text : List UInt8}
    (hfile : file? (.message level text now) = none) :
    fileOf std file? (h ++ [.message level text now]) =
      some ((lastOf file? h).join.getD std.stderr) := by
  unfold fileOf
  rw [lastOf_concat, lastOf_concat, hfile, Option.none_or, Call.messages?, Option.some_or,
    if_pos rfl]
  cases (lastOf file? h).join <;> rfl

theorem fileOf_getD {file? : Call φ → Option (Option φ)} :
    (fileOf std file? h).getD std.stderr = (lastOf file? h).join.getD std.stderr := by
  unfold fileOf
  rw [getD_or]
  split <;> rfl

/-- What a call sets is what the history then tells; the rest stays. -/
theorem Holds.concat (k : Holds std g h) {call : Call φ} {g' : Globals φ}
    (hcall : ∀ file?, call.messages? file? = (file? call).map fun _ => false)
    (hlevel : g'.logLevel = call.level?.getD g.logLevel)
    (hflags : ∀ i, g'.flags.getLsbD i = (call.switches? i).getD (g.flags.getLsbD i))
    (herror : g'.errorFile = call.errorFile?.getD g.errorFile)
    (hmessage : g'.messageFile = call.messageFile?.getD g.messageFile) :
    Holds std g' (h ++ [call]) where
  level := by rw [hlevel, k.level, levelOf, levelOf, lastOf_concat, getD_or]
  flags i := by rw [hflags, k.flags, flagOf, flagOf, lastOf_concat, getD_or]
  errorFile := by rw [herror, k.errorFile, fileOf_concat (hcall _)]
  messageFile := by rw [hmessage, k.messageFile, fileOf_concat (hcall _)]

/-- A message changes the files that are NULL, and nothing else. -/
theorem Holds.message (k : Holds std g h) (level now : ℤ) (text : List UInt8) :
    Holds std { g with errorFile := some (g.errorFile.getD std.stderr)
                       messageFile := some (g.messageFile.getD std.stderr) }
      (h ++ [.message level text now]) where
  level := by simpa [levelOf, Call.level?] using k.level
  flags i := by simpa [flagOf, Call.switches?] using k.flags i
  errorFile := by
    rw [fileOf_message Call.errorFile? rfl, ← fileOf_getD, k.errorFile]
  messageFile := by
    rw [fileOf_message Call.messageFile? rfl, ← fileOf_getD, k.messageFile]

/-- A message is logged, or not, as the history tells. -/
theorem Holds.logMessage_eq (k : Holds std g h) (level : ℤ) (text : List UInt8) (now : ℤ) :
    ∃ out ending, logMessage std g level text now =
        ({ g with errorFile := some (g.errorFile.getD std.stderr)
                  messageFile := some (g.messageFile.getD std.stderr) }, out, ending) ∧
      answer std h (.message level text now) = .logged out ending := by
  have herror : g.errorFile.getD std.stderr =
      (lastOf Call.errorFile? h).join.getD std.stderr := by
    rw [k.errorFile, fileOf_getD]
  have hmessage : g.messageFile.getD std.stderr =
      (lastOf Call.messageFile? h).join.getD std.stderr := by
    rw [k.messageFile, fileOf_getD]
  by_cases hlog : level < levelOf h
  · refine ⟨none, .returns, ?_, by rw [answer, if_pos hlog]⟩
    rw [logMessage, if_neg (by simpa [k.level] using hlog)]
  · refine ⟨_, _, ?_, by rw [answer, if_neg hlog]⟩
    rw [logMessage, if_pos (by simpa [k.level] using hlog)]
    simp only [k.flags, herror, hmessage]
    cases toMessageFile level <;> rfl

/-- Each call does what the history tells. -/
theorem Holds.step (k : Holds std g h) (call : Call φ) :
    ∃ s t, (process std).step (some g) call = some (s, answer std h call) ∧
      (history std).step (some h) call = some (t, answer std h call) ∧ Follows std s t := by
  cases call with
  | setLevel level => exact ⟨_, _, rfl, rfl, k.concat (fun _ => rfl) rfl (fun _ => rfl) rfl rfl⟩
  | setErrorFile f => exact ⟨_, _, rfl, rfl, k.concat (fun _ => rfl) rfl (fun _ => rfl) rfl rfl⟩
  | getErrorFile =>
      refine ⟨some g, _, ?_, rfl, k.concat (fun _ => rfl) rfl (fun _ => rfl) rfl rfl⟩
      simp [process, logGetErrorFile, k.errorFile, answer]
  | setMessageFile f => exact ⟨_, _, rfl, rfl, k.concat (fun _ => rfl) rfl (fun _ => rfl) rfl rfl⟩
  | getMessageFile =>
      refine ⟨some g, _, ?_, rfl, k.concat (fun _ => rfl) rfl (fun _ => rfl) rfl rfl⟩
      simp [process, k.messageFile, answer]
  | setFlags newFlags =>
      refine ⟨_, _, rfl, rfl, k.concat (fun _ => rfl) rfl (fun i => ?_) rfl rfl⟩
      cases hi : newFlags.getLsbD i <;> simp [Call.switches?, hi]
  | clearFlags newFlags =>
      refine ⟨_, _, rfl, rfl, k.concat (fun _ => rfl) rfl (fun i => ?_) rfl rfl⟩
      cases hi : newFlags.getLsbD i with
      | true => simp [Call.switches?, hi]
      | false =>
          have hwidth : g.flags.getLsbD i = true → i < 32 := BitVec.lt_of_getLsbD
          simp [Call.switches?, hi]
          exact hwidth
  | message level text now =>
      obtain ⟨out, ending, hmessage, hanswer⟩ := k.logMessage_eq level text now
      have k' := k.message level now text
      by_cases hending : ending = .returns
      · refine ⟨some _, some _, ?_, ?_, k'⟩
        · simp [process, hmessage, hanswer, hending]
        · simp [history, hanswer, hending, Answer.goesOn]
      · refine ⟨none, none, ?_, ?_, trivial⟩
        · simp [process, hmessage, hanswer, hending]
        · simp [history, hanswer, hending, Answer.goesOn]

/-- The process simulates its history. -/
theorem process_simulates (std : Std φ) :
    Machine.Simulates (process std) (history std) fun _ => Follows std where
  step := by
    intro n s t call t' o k hstep
    cases t with
    | none => cases hstep
    | some h =>
        cases s with
        | none => exact k.elim
        | some g =>
            obtain ⟨s, t, hs, ht, k'⟩ := Holds.step k call
            cases ht.symm.trans hstep
            exact ⟨s, hs, k'⟩

/-- In every run each call is answered as the calls before it tell, up to the message that
ends the process. -/
theorem log_run (std : Std φ) {calls : List (Call φ)} {t : Option (List (Call φ))}
    {os : List (Answer φ)} (hrun : (history std).run (some []) calls = some (t, os)) :
    ∃ s, (process std).run (some start) calls = some (s, os) ∧ Follows std s t :=
  (process_simulates std).run (show Follows std (some start) (some []) from holds_start std) hrun

section Sample

open Infra.Ascii

/-- The standard files as their descriptors. -/
def descriptors : Std ℕ := { stdout := 1, stderr := 2 }

/-- A message changes the file for errors; a crash is not logged, and a fatal error is. -/
def calls : List (Call ℕ) :=
  [.getErrorFile, .message messNormal (bytes "a") 0, .getErrorFile, .setFlags 1,
    .setMessageFile (some 5), .message messDebug (bytes "b") 12, .setLevel 8,
    .message messCrash (bytes "c") 13, .clearFlags 3, .setLevel 1, .setErrorFile none,
    .message messFatal (bytes "d") 14]

theorem log_run_fatal : ∃ s, (process descriptors).run (some start) calls =
    some (s, [.file (some 1), .logged (some (2, bytes "a")) .returns, .file (some 2), .done, .done,
      .logged (some (5, bytes "12:b")) .returns, .done, .logged none .returns, .done, .done, .done,
      .logged (some (2, bytes "d")) (.exit 1)]) := by
  have hanswers : ((history descriptors).run (some []) calls).map Prod.snd =
      some [.file (some 1), .logged (some (2, bytes "a")) .returns, .file (some 2), .done, .done,
        .logged (some (5, bytes "12:b")) .returns, .done, .logged none .returns, .done, .done,
        .done, .logged (some (2, bytes "d")) (.exit 1)] := by
    decide +kernel
  obtain ⟨⟨t, os⟩, hrun, rfl⟩ := Option.map_eq_some_iff.mp hanswers
  obtain ⟨s, hs, -⟩ := log_run descriptors hrun
  exact ⟨s, hs⟩

end Sample

end Log

end Infra
