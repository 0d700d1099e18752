import TurnCodec.Cli.Run
import TurnCodec.Tree.Json
/-! The inspector as a program. What the system gives as strings of characters it takes
by their UTF-8 bytes, and texts it writes out as the bytes that they are. -/

namespace TurnCodec

/-- Looks at a path: what cannot be found or looked at, or is no regular file, is absent. -/
def probe (path : String) : IO Cli.File := do
  let regular ← (do return (← (← IO.FS.realPath path).metadata).type == .file : IO Bool).toBaseIO
  match regular with
  | .ok true =>
    match ← (IO.FS.Handle.mk path .read).toBaseIO with
    | .error _ => return .closed
    | .ok handle =>
      match ← handle.readBinToEnd.toBaseIO with
      | .ok contents => return .regular contents.data.toList
      | .error e => return .broken (toString e)
  | _ => return .absent

/-- Writes the bytes of a text. -/
def put (out : IO.FS.Stream) (s : String) : IO Unit := out.write ⟨(Text.bytes s).toArray⟩

end TurnCodec

open TurnCodec in
def main (args : List String) : IO UInt32 := do
  let named := (args.zip (args.drop 1)).filter (·.1 == "--input")
  let found ← named.mapM fun (_, path) => return (Text.ofUtf8 path, ← probe path)
  let outcome := Cli.run (fun path => (found.lookup path).getD .absent) (args.map Text.ofUtf8)
  put (← IO.getStdout) outcome.console.out
  match outcome.printed with
  | some tree => put (← IO.getStdout) (tree.toJson ++ "\n")
  | none => pure ()
  put (← IO.getStderr) outcome.console.err
  match outcome.exit with
  | .ok code => return code.toUInt32
  | .error what =>
    put (← IO.getStderr) (what ++ "\n")
    -- as after an abort
    return 134
