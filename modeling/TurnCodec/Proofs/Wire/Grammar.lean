import Mathlib.Tactic.MkIffOfInductiveProp
import TurnCodec.Registry
import TurnCodec.Response.Basic
import TurnCodec.Wire.Fields
/-! The grammar of wire trees, as conditions on a tree and not as a way to read one. Each
object has a shape: which fields it must have, which it may have, and of what kind. Fields
that a shape does not mention are free. The kind of a metadata record is a parameter. -/

namespace TurnCodec

namespace Fields

/-- The field is there, and of the kind. -/
def Requires (fs : Fields) (key : String) (kind : Tree → Prop) : Prop := ∃ w, fs.lookup key = some w ∧ kind w

/-- The field is of the kind if it is there. A null is there. -/
def Allows (fs : Fields) (key : String) (kind : Tree → Prop) : Prop := ∀ w, fs.lookup key = some w → kind w

/-- How many of the keys are there. -/
def carried (fs : Fields) (keys : List String) : Nat := keys.countP fs.has

end Fields

namespace Tree

def IsText (w : Tree) : Prop := ∃ s, w = .text s

def IsBool (w : Tree) : Prop := ∃ b, w = .bool b

/-- An integer in the signed 64-bit range. -/
def IsCount (w : Tree) : Prop := ∃ n : Integer, w = .int n ∧ -0x8000000000000000 ≤ n.val ∧ n.val < 0x8000000000000000

/-- An integer in the signed 32-bit range. -/
def IsIndex (w : Tree) : Prop := ∃ n : Integer, w = .int n ∧ -0x80000000 ≤ n.val ∧ n.val < 0x80000000

/-- The name of a member. -/
def IsTag (α : Type) [Named α] (w : Tree) : Prop := ∃ a : α, w = .text (Named.name a)

def IsArray (item : Tree → Prop) (w : Tree) : Prop := ∃ items, w = .array items ∧ ∀ t ∈ items, item t

def IsObject (shape : Fields → Prop) (w : Tree) : Prop := ∃ fs, w = .object fs ∧ shape fs

end Tree

open TurnCodec.Tree

variable (record : Tree → Prop)

/-- Metadata: records under any keys. -/
def Extra.IsExtra : Tree → Prop := IsObject fun records => ∀ e ∈ records, record e.2

@[mk_iff]
structure Media.Shape (fs : Fields) : Prop where
  url : fs.Allows "url" IsText
  base64Data : fs.Allows "base64_data" IsText
  mimeType : fs.Requires "mime_type" IsText
  extra : fs.Allows "extra" (Extra.IsExtra record)

/-- The text under `type` names the part, which decides on the other fields. -/
def InputPart.Shape (fs : Fields) : Prop :=
  ∃ type : PartType, fs.Requires "type" (· = .text type.name) ∧
    match type with
    | .text => fs.Requires "content" IsText
    | .image => Media.Shape record fs ∧ fs.Allows "detail" (IsTag ImageDetail)
    | .audio | .video => Media.Shape record fs
    | .file => Media.Shape record fs ∧ fs.Allows "name" IsText

def OutputPart.Shape (fs : Fields) : Prop :=
  ∃ type : PartType, fs.Requires "type" (· = .text type.name) ∧
    match type with
    | .text => fs.Requires "content" IsText ∧ fs.Allows "extra" (Extra.IsExtra record)
    | .image | .audio | .video => Media.Shape record fs
    | .file => False

/-- Exactly one field holds the contents. -/
@[mk_iff]
structure Message.Shape (fs : Fields) : Prop where
  role : fs.Requires "role" (IsTag Role)
  index : fs.Allows "index" IsIndex
  one : fs.carried ["input_text", "input_parts", "output_parts"] = 1
  inputText : fs.Allows "input_text" IsText
  inputParts : fs.Allows "input_parts" (IsArray (IsObject (InputPart.Shape record)))
  outputParts : fs.Allows "output_parts" (IsArray (IsObject (OutputPart.Shape record)))
  extra : fs.Allows "extra" (Extra.IsExtra record)

@[mk_iff]
structure SummaryFragment.Shape (fs : Fields) : Prop where
  text : fs.Requires "text" IsText
  extra : fs.Allows "extra" (Extra.IsExtra record)

@[mk_iff]
structure Reasoning.Shape (fs : Fields) : Prop where
  index : fs.Allows "index" IsIndex
  summaryIndex : fs.Allows "summary_index" IsIndex
  summary : fs.Requires "summary" (IsArray (IsObject (SummaryFragment.Shape record)))
  encryptedContent : fs.Requires "encrypted_content" IsText
  extra : fs.Allows "extra" (Extra.IsExtra record)

@[mk_iff]
structure ToolCall.Shape (fs : Fields) : Prop where
  index : fs.Allows "index" IsIndex
  type : fs.Requires "type" (IsTag ToolCallType)
  id : fs.Requires "id" IsText
  name : fs.Requires "name" IsText
  arguments : fs.Requires "arguments" IsText
  extra : fs.Allows "extra" (Extra.IsExtra record)

@[mk_iff]
structure McpResult.Shape (fs : Fields) : Prop where
  content : fs.Requires "content" IsText
  approvalRequestId : fs.Requires "approval_request_id" IsText
  status : fs.Requires "status" (IsTag McpStatus)
  error : fs.Requires "error" IsText
  extra : fs.Allows "extra" (Extra.IsExtra record)

/-- At most one field holds an output, whatever `type` says. -/
@[mk_iff]
structure ToolCallOutput.Shape (fs : Fields) : Prop where
  index : fs.Allows "index" IsIndex
  type : fs.Requires "type" (IsTag ToolOutputType)
  callId : fs.Requires "tool_call_id" IsText
  toolName : fs.Requires "tool_name" IsText
  one : fs.carried ["custom", "mcp"] ≤ 1
  custom : fs.Allows "custom" (IsObject fun custom => custom.Requires "content" IsText)
  mcp : fs.Allows "mcp" (IsObject (McpResult.Shape record))

/-- Any tree may stand under `input_schema`. -/
@[mk_iff]
structure ToolListing.Shape (fs : Fields) : Prop where
  name : fs.Requires "name" IsText
  description : fs.Requires "description" IsText

@[mk_iff]
structure McpListTools.Shape (fs : Fields) : Prop where
  serverLabel : fs.Requires "server_label" IsText
  tools : fs.Requires "tools" (IsArray (IsObject ToolListing.Shape))
  error : fs.Requires "error" IsText

@[mk_iff]
structure ApprovalRequest.Shape (fs : Fields) : Prop where
  name : fs.Requires "name" IsText
  arguments : fs.Requires "arguments" IsText
  serverLabel : fs.Requires "server_label" IsText

@[mk_iff]
structure ApprovalResponse.Shape (fs : Fields) : Prop where
  requestId : fs.Requires "approval_request_id" IsText
  approve : fs.Requires "approve" IsBool
  reason : fs.Requires "reason" IsText

def Payload.Shape : BlockType → Fields → Prop
  | .message => Message.Shape record
  | .reasoning => Reasoning.Shape record
  | .toolCall => ToolCall.Shape record
  | .toolCallOutput => ToolCallOutput.Shape record
  | .mcpListTools => McpListTools.Shape
  | .mcpToolApprovalRequest => ApprovalRequest.Shape
  | .mcpToolApprovalResponse => ApprovalResponse.Shape

/-- At most one of the keys that name payloads is there, whatever `type` says. -/
@[mk_iff]
structure Block.Shape (fs : Fields) : Prop where
  type : fs.Requires "type" (IsTag BlockType)
  one : fs.carried ["message", "reasoning", "tool_call", "tool_call_output", "mcp_list_tools",
    "mcp_tool_approval_request", "mcp_tool_approval_response"] ≤ 1
  payload : ∀ held : BlockType, fs.Allows held.name (IsObject (Payload.Shape record held))

@[mk_iff]
structure Finish.Shape (fs : Fields) : Prop where
  status : fs.Requires "status" (IsTag FinishStatus)
  reason : fs.Requires "reason" IsText

@[mk_iff]
structure Usage.Shape (fs : Fields) : Prop where
  input : fs.Requires "input_tokens" IsCount
  inputDetails : fs.Requires "input_tokens_details" (IsObject fun details => details.Requires "cached_tokens" IsCount)
  output : fs.Requires "output_tokens" IsCount
  outputDetails : fs.Requires "output_tokens_details"
    (IsObject fun details => details.Requires "reasoning_tokens" IsCount)
  total : fs.Requires "total_tokens" IsCount

@[mk_iff]
structure Response.Shape (fs : Fields) : Prop where
  id : fs.Requires "id" IsText
  finish : fs.Allows "finish_reason" (IsObject Finish.Shape)
  usage : fs.Allows "usage" (IsObject Usage.Shape)
  blocks : fs.Requires "blocks" (IsArray (IsObject (Block.Shape record)))

variable {F : TypeFamily}

/-- A record: a type id that is reserved for plain values, or bound to a decoder that accepts
the payload. -/
def Extension.IsRecord (R : Registry F) : Tree → Prop := IsObject fun fs =>
  ∃ id, fs.lookup "t" = some (.text id) ∧ ∃ p, fs.lookup "p" = some p ∧
    (id = "json" ∨ ∃ k b, R.byId? id = some ⟨k, b⟩ ∧ ∃ v, b.decode p = .ok v)

/-- The trees that are wire trees of responses, over a registry. -/
def Response.Grammatical (R : Registry F) : Tree → Prop := IsObject (Response.Shape (Extension.IsRecord R))

end TurnCodec
