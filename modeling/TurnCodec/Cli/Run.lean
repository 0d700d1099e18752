import TurnCodec.Cli.Request
import TurnCodec.Codec
/-! A run of the inspector. The exit code is 0 for success, 2 for bad arguments, 3
for a file that cannot be opened, and 4 for a payload that the codec refuses. A file
that opens and cannot be read ends the run without an exit code. -/

namespace TurnCodec.Cli

/-- What a path leads to: no regular file, one that cannot be opened, one that can but
cannot be read, for a reason that the system gives, or one with contents. -/
inductive File
  | absent
  | closed
  | broken (why : String)
  | regular (contents : List UInt8)

def File.isRegular : File → Bool
  | absent => false
  | _ => true

/-- What a run leaves behind: its exit code, or the exception that it ended by, its
log, and the tree that it prints to standard output after the log. -/
structure Outcome where
  exit : Except String UInt8
  console : Console
  printed : Option Tree := none

/-- Reads a file. The buffer of the stream throws what goes wrong, and nothing catches it;
the stream itself is never told, so no report is made of it. -/
def File.read (path : String) : File → Except String (Except Report (List UInt8))
  | regular contents => .ok (.ok contents)
  | broken why => .error ("basic_filebuf::underflow error reading the file: " ++ why)
  | _ => .ok (.error ⟨.input, "Unable to open input file: " ++ path, "input_open_failed", ""⟩)

/-- The last component of a path. -/
def fileName (path : String) : String :=
  String.ofList (path.toList.reverse.takeWhile (· ≠ '/')).reverse

/-- A report as an error, and its hint if it has one. -/
def tellReport (r : Report) : Logged Unit := do
  Logged.tell .error (r.kind.name ++ " [" ++ r.code ++ "]: " ++ r.message)
  if r.hint.isEmpty then pure () else Logged.tell .info ("Hint: " ++ r.hint)

def Request.options (q : Request) : Options := { maxPayloadBytes := UInt64.ofNat q.maxBytes }

/-- Only plain extension values can be resolved from the command line. -/
def Request.codec (q : Request) : Codec .none := ⟨∅, q.options⟩

/-- Carries out a request on what its input leads to. -/
def Request.run (q : Request) (file : File) : Logged (Except String UInt8 × Option Tree) :=
  let refuse (code : UInt8) (r : Report) : Logged (Except String UInt8 × Option Tree) := do
    tellReport r
    return (.ok code, none)
  match file.read q.input with
  | .error what => return (.error what, none)
  | .ok (.error r) => refuse 3 r
  | .ok (.ok payload) => do
    Logged.tell .debug ("Read " ++ toString payload.length ++ " bytes")
    match q.command with
    | .inspect =>
      match q.codec.inspect payload with
      | .error e => refuse 4 e.report
      | .ok w => return (.ok 0, some w)
    | .validate =>
      match ← q.codec.decode payload with
      | .error e => refuse 4 e.report
      | .ok r => do
        Logged.tell .info ("Valid response " ++ r.id ++ " with " ++ toString r.blocks.length ++ " blocks")
        return (.ok 0, none)

/-- A whole run, on the arguments after the program name. -/
def run (files : String → File) (args : List String) : Outcome :=
  match Request.parse (fun path => (files path).isRegular) args with
  | .error e => ⟨.ok 2, ({ minLevel := .info } : Logger).write (tellReport e.report).entries, none⟩
  | .ok q =>
    let logger : Logger := { minLevel := if q.verbose then .debug else .info, context := fileName q.input }
    let outcome := q.run (files q.input)
    ⟨outcome.value.1, logger.write outcome.entries, outcome.value.2⟩

end TurnCodec.Cli
