import Infra.Foundation.Ascii
import Infra.Foundation.Simulation
import Mathlib.Data.BitVec

/-!
# The log of `log.c`

The library has four static variables: the level from which on messages are logged, the
files for errors and for other messages, and the flags. A file that is NULL is replaced
by `stderr` when a message comes, also by one that is not logged. The text of a message
is what `vfprintf` makes of its format, and `now` is the answer of `time`. A message of
the level `MESS_CRASH` or `MESS_FATAL` that is logged ends the process.
-/

namespace Infra

namespace Log

open Infra.Ascii

/-- `MESS_REALDEBUG`. -/
def messRealdebug : ℤ := 1

/-- `MESS_DEBUG`. -/
def messDebug : ℤ := 2

/-- `MESS_VERBOSE`. -/
def messVerbose : ℤ := 3

/-- `MESS_NORMAL`. -/
def messNormal : ℤ := 4

/-- `MESS_FATAL`. -/
def messFatal : ℤ := 6

/-- `MESS_CRASH`. -/
def messCrash : ℤ := 7

/-- `LOG_TIMES`, as the number of its bit. -/
def logTimes : ℕ := 0

/-- The standard files of the process. -/
structure Std (φ : Type) where
  stdout : φ
  stderr : φ

/-- The static variables; a file is `none` when it is NULL. -/
structure Globals (φ : Type) where
  logLevel : ℤ
  errorFile : Option φ
  messageFile : Option φ
  flags : BitVec 32

/-- How a call of `logMessage` ends. -/
inductive Ending where
  | returns
  | crash
  | exit (status : ℤ)
  deriving DecidableEq

/-- A call of a function of the library. -/
inductive Call (φ : Type) where
  | setLevel (level : ℤ)
  | setErrorFile (f : Option φ)
  | getErrorFile
  | setMessageFile (f : Option φ)
  | getMessageFile
  | setFlags (newFlags : BitVec 32)
  | clearFlags (newFlags : BitVec 32)
  | message (level : ℤ) (text : List UInt8) (now : ℤ)

/-- What a call returns, and what a message puts into which file. -/
inductive Answer (φ : Type) where
  | done
  | file (f : Option φ)
  | logged (out : Option (φ × List UInt8)) (ending : Ending)
  deriving DecidableEq

section Functions

variable {φ : Type}

/-- The static variables when the process starts. -/
def start : Globals φ :=
  { logLevel := messDebug, errorFile := none, messageFile := none, flags := 0 }

/-- `logGetErrorFile`. -/
def logGetErrorFile (std : Std φ) (g : Globals φ) : φ := g.errorFile.getD std.stdout

/-- The conversion `%ld`. -/
def formatLong (n : ℤ) : List UInt8 := (if n < 0 then bytes "-" else []) ++ decimal n.natAbs

/-- The messages of these levels go to the file for messages. -/
def toMessageFile (level : ℤ) : Bool :=
  level = messRealdebug ∨ level = messDebug ∨ level = messNormal ∨ level = messVerbose

/-- `logMessage`. -/
def logMessage (std : Std φ) (g : Globals φ) (level : ℤ) (text : List UInt8) (now : ℤ) :
    Globals φ × Option (φ × List UInt8) × Ending :=
  let errorFile := g.errorFile.getD std.stderr
  let messageFile := g.messageFile.getD std.stderr
  let g := { g with errorFile := some errorFile, messageFile := some messageFile }
  if level ≥ g.logLevel then
    let file := if toMessageFile level then messageFile else errorFile
    let times := if g.flags.getLsbD logTimes then formatLong now ++ bytes ":" else []
    let ending :=
      if level = messCrash then .crash else if level = messFatal then .exit 1 else .returns
    (g, some (file, times ++ text), ending)
  else (g, none, .returns)

/-- The process: the static variables, as long as it has not ended. -/
def process (std : Std φ) : Machine (Option (Globals φ)) (Call φ) (Answer φ) where
  step
    | none, _ => none
    | some g, .setLevel level => some (some { g with logLevel := level }, .done)
    | some g, .setErrorFile f => some (some { g with errorFile := f }, .done)
    | some g, .getErrorFile => some (some g, .file (some (logGetErrorFile std g)))
    | some g, .setMessageFile f => some (some { g with messageFile := f }, .done)
    | some g, .getMessageFile => some (some g, .file g.messageFile)
    | some g, .setFlags newFlags => some (some { g with flags := g.flags ||| newFlags }, .done)
    | some g, .clearFlags newFlags =>
        some (some { g with flags := g.flags &&& ~~~newFlags }, .done)
    | some g, .message level text now =>
        let (g, out, ending) := logMessage std g level text now
        some (if ending = .returns then some g else none, .logged out ending)

end Functions

end Log

end Infra
