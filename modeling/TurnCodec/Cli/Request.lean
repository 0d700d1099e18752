import TurnCodec.Report
/-! The command line of the inspector: a command, an input file, a limit on its
size, and whether to tell more. -/

namespace TurnCodec.Cli

inductive Command
  | inspect
  | validate
deriving DecidableEq

structure Request where
  command : Command
  input : String
  maxBytes : Nat
  verbose : Bool
deriving DecidableEq

/-- Why arguments are no request. -/
inductive UsageFault
  | noCommand
  | unknownCommand (word : String)
  | missingValue (flag : String)
  | unknownArgument (word : String)
  | noInput
  | notANumber
  | outOfBounds
  | notAFile
deriving DecidableEq

def usage : String := "Usage: agentic_inspect <inspect|validate> --input <file>"

def UsageFault.report : UsageFault → Report
  | noCommand => ⟨.input, "No command provided.", "missing_command", usage⟩
  | unknownCommand word => ⟨.input, "Unknown command: " ++ word, "unknown_command", usage⟩
  | missingValue flag => ⟨.input, "Missing value for " ++ flag, "missing_value", ""⟩
  | unknownArgument word => ⟨.input, "Unknown argument: " ++ word, "unknown_argument", ""⟩
  | noInput => ⟨.input, "Must provide --input", "missing_required_flag", usage⟩
  | notANumber => ⟨.input, "Invalid number for --max-bytes", "invalid_integer", "Provide a positive integer."⟩
  | outOfBounds =>
    ⟨.input, "--max-bytes out of bounds", "bounds_error", "Must be between 1 and 1073741824."⟩
  | notAFile => ⟨.input, "Input does not exist or is not a regular file", "invalid_path", ""⟩

def Command.parse? : String → Option Command
  | "inspect" => some .inspect
  | "validate" => some .validate
  | _ => none

/-- The flags as they were given, the last of each. -/
structure Flags where
  input : Option String := none
  maxBytes : Option String := none
  verbose : Bool := false
deriving DecidableEq

/-- Reads flags onto those already read. The word after `--input` or `--max-bytes`
is its value, whatever it looks like. -/
def Flags.read (f : Flags) : List String → Except UsageFault Flags
  | [] => .ok f
  | "--input" :: value :: rest => Flags.read { f with input := some value } rest
  | "--max-bytes" :: value :: rest => Flags.read { f with maxBytes := some value } rest
  | "--verbose" :: rest => Flags.read { f with verbose := true } rest
  | [word] => if word = "--input" ∨ word = "--max-bytes" then .error (.missingValue word) else .error (.unknownArgument word)
  | word :: _ => .error (.unknownArgument word)

/-- The word with one more decimal digit behind those it has, if that still fits. -/
def withDigit? (n : UInt64) (c : Char) : Option UInt64 :=
  let digit := (c.toNat - '0'.toNat).toUInt64
  if c.isDigit ∧ n ≤ (0xffffffffffffffff - digit) / 10 then some (10 * n + digit) else none

/-- The number that decimal digits spell, if it fits in 64 bits. -/
def number? (s : String) : Option Nat :=
  if s.isEmpty then none else (s.toList.foldlM withDigit? 0).map UInt64.toNat

/-- The greatest limit that may be asked for. -/
def maxBytesBound : Nat := 1024 * 1024 * 1024

def limit (given : Option String) : Except UsageFault Nat :=
  match given with
  | none => .ok (64 * 1024 * 1024)
  | some s =>
    match number? s with
    | none => .error .notANumber
    | some n => if n = 0 ∨ maxBytesBound < n then .error .outOfBounds else .ok n

/-- The request that a command and its flags make, where `isFile` knows the regular files. -/
def Request.ofFlags (isFile : String → Bool) (command : Command) (flags : Flags) : Except UsageFault Request :=
  match flags.input with
  | none => .error .noInput
  | some input => do
    let maxBytes ← limit flags.maxBytes
    if isFile input then return { command, input, maxBytes, verbose := flags.verbose }
    else .error .notAFile

/-- The request that the arguments make. -/
def Request.parse (isFile : String → Bool) : List String → Except UsageFault Request
  | [] => .error .noCommand
  | word :: words =>
    match Command.parse? word with
    | none => .error (.unknownCommand word)
    | some command => do ofFlags isFile command (← Flags.read {} words)

end TurnCodec.Cli
