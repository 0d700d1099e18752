import TurnCodec.Response.Traversal
import TurnCodec.Wire.Block
/-! Responses on the wire. To write one is to turn its metadata into records and
lay it out. A reader ignores fields that it does not know, and logs those at the
top level. -/

namespace TurnCodec

namespace Finish

def layout (f : Finish) : Tree :=
  .object [("reason", .text f.reason), ("status", .text f.status.name)]

def ofWire (w : Tree) : Except Malformed Finish := do
  let fs ← w.fieldsOf "finish_reason"
  let status ← fs.tag FinishStatus "status" "finish status"
  let reason ← fs.text "reason"
  return { status, reason }

end Finish

namespace Usage

def layout (u : Usage) : Tree :=
  .object [
    ("input_tokens", .ofInt64 u.input),
    ("input_tokens_details", .object [("cached_tokens", .ofInt64 u.cached)]),
    ("output_tokens", .ofInt64 u.output),
    ("output_tokens_details", .object [("reasoning_tokens", .ofInt64 u.reasoning)]),
    ("total_tokens", .ofInt64 u.total)]

def ofWire (w : Tree) : Except Malformed Usage := do
  let fs ← w.fieldsOf "usage"
  let input ← fs.count "input_tokens"
  let inputDetails ← fs.object "input_tokens_details"
  let cached ← inputDetails.count "cached_tokens"
  let output ← fs.count "output_tokens"
  let outputDetails ← fs.object "output_tokens_details"
  let reasoning ← outputDetails.count "reasoning_tokens"
  let total ← fs.count "total_tokens"
  return { input, cached, output, reasoning, total }

end Usage

namespace Response

def layout (r : Response Tree) : Tree :=
  .record [
    ("blocks", some (.array (r.blocks.map (·.layout)))),
    ("finish_reason", r.finish.map (·.layout)),
    ("id", some (.text r.id)),
    ("usage", r.usage.map (·.layout))]

/-- Reads a response, its metadata by `read`. -/
def readWire {E : Type} (read : String → Tree → Except Malformed E) (w : Tree) : Except Malformed (Response E) := do
  let fs ← w.fieldsOf "response"
  let id ← fs.text "id"
  let finish ← (fs.lookup "finish_reason").mapM Finish.ofWire
  let usage ← (fs.lookup "usage").mapM Usage.ofWire
  let items ← fs.array "blocks"
  let blocks ← items.mapM (Block.ofWire read)
  return { id, finish, usage, blocks }

variable {F : TypeFamily}

def toWire (R : Registry F) (r : Response (Extension F)) : Except Unwritable Tree :=
  layout <$> r.traverse (Extension.toWire R)

def ofWire (R : Registry F) (w : Tree) : Except Malformed (Response (Extension F)) :=
  readWire (Extension.ofWire R) w

def knownKeys : List String := ["id", "finish_reason", "usage", "blocks"]

/-- The keys of a wire tree that no response has. -/
def unknownKeys : Tree → List String
  | .object fields => (fields.map (·.1)).filter (!knownKeys.contains ·)
  | _ => []

/-- Reads a response and logs what it ignores, whether or not the reading succeeds. -/
def receive (R : Registry F) (w : Tree) : Logged (Except Malformed (Response (Extension F))) := do
  (unknownKeys w).forM fun key => Logged.tell .debug ("Ignoring unknown response field: " ++ key)
  return ofWire R w

end Response

end TurnCodec
