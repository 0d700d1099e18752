import TurnCodec.Response.Block
import TurnCodec.Wire.Part
/-! Blocks on the wire. The payload stands under the key that names what is held,
whatever the field `type` says. -/

namespace TurnCodec

variable {E : Type} (read : String → Tree → Except Malformed E)

namespace Message

def layout (m : Message Tree) : Tree :=
  let text := match m.content with
    | .text s => some (Tree.text s)
    | _ => none
  let input := match m.content with
    | .input parts => some (Tree.array (parts.map (·.layout)))
    | _ => none
  let output := match m.content with
    | .output parts => some (Tree.array (parts.map (·.layout)))
    | _ => none
  .record [
    ("extra", m.extra.layout),
    ("index", m.index.map .ofInt32),
    ("input_parts", input),
    ("input_text", text),
    ("output_parts", output),
    ("role", some (.text m.role.name))]

/-- Exactly one of three fields holds the contents. -/
def contentOfWire (fs : Fields) : Except Malformed (Content E) :=
  match fs.lookup "input_text", fs.lookup "input_parts", fs.lookup "output_parts" with
  | some _, none, none => .text <$> fs.text "input_text"
  | none, some w, none => do
    let parts ← w.itemsOf "input_parts"
    return .input (← parts.mapM (InputPart.ofWire read))
  | none, none, some w => do
    let parts ← w.itemsOf "output_parts"
    return .output (← parts.mapM (OutputPart.ofWire read))
  | a, b, c => .error (.contentForms (a.toList.length + b.toList.length + c.toList.length))

def ofWire (w : Tree) : Except Malformed (Message E) := do
  let fs ← w.fieldsOf "message"
  let role ← fs.tag Role "role" "role"
  let index ← fs.index? "index"
  let content ← contentOfWire read fs
  let extra ← Extra.ofWire read fs
  return { index, role, content, extra }

end Message

namespace SummaryFragment

def layout (f : SummaryFragment Tree) : Tree :=
  .record [("extra", f.extra.layout), ("text", some (.text f.text))]

def ofWire (w : Tree) : Except Malformed (SummaryFragment E) := do
  let fs ← w.fieldsOf "summary fragment"
  let text ← fs.text "text"
  let extra ← Extra.ofWire read fs
  return { text, extra }

end SummaryFragment

namespace Reasoning

def layout (r : Reasoning Tree) : Tree :=
  .record [
    ("encrypted_content", some (.text r.encryptedContent)),
    ("extra", r.extra.layout),
    ("index", r.index.map .ofInt32),
    ("summary", some (.array (r.summary.map (·.layout)))),
    ("summary_index", r.summaryIndex.map .ofInt32)]

def ofWire (w : Tree) : Except Malformed (Reasoning E) := do
  let fs ← w.fieldsOf "reasoning"
  let index ← fs.index? "index"
  let summaryIndex ← fs.index? "summary_index"
  let fragments ← fs.array "summary"
  let summary ← fragments.mapM (SummaryFragment.ofWire read)
  let encryptedContent ← fs.text "encrypted_content"
  let extra ← Extra.ofWire read fs
  return { index, summaryIndex, summary, encryptedContent, extra }

end Reasoning

namespace ToolCall

def layout (c : ToolCall Tree) : Tree :=
  .record [
    ("arguments", some (.text c.arguments)),
    ("extra", c.extra.layout),
    ("id", some (.text c.id)),
    ("index", c.index.map .ofInt32),
    ("name", some (.text c.name)),
    ("type", some (.text c.type.name))]

def ofWire (w : Tree) : Except Malformed (ToolCall E) := do
  let fs ← w.fieldsOf "tool_call"
  let index ← fs.index? "index"
  let type ← fs.tag ToolCallType "type" "tool call type"
  let id ← fs.text "id"
  let name ← fs.text "name"
  let arguments ← fs.text "arguments"
  let extra ← Extra.ofWire read fs
  return { index, type, id, name, arguments, extra }

end ToolCall

namespace McpResult

def layout (r : McpResult Tree) : Tree :=
  .record [
    ("approval_request_id", some (.text r.approvalRequestId)),
    ("content", some (.text r.content)),
    ("error", some (.text r.error)),
    ("extra", r.extra.layout),
    ("status", some (.text r.status.name))]

def ofWire (w : Tree) : Except Malformed (McpResult E) := do
  let fs ← w.fieldsOf "mcp"
  let content ← fs.text "content"
  let approvalRequestId ← fs.text "approval_request_id"
  let status ← fs.tag McpStatus "status" "MCP tool call status"
  let error ← fs.text "error"
  let extra ← Extra.ofWire read fs
  return { content, approvalRequestId, status, error, extra }

end McpResult

namespace ToolCallOutput

def layout (o : ToolCallOutput Tree) : Tree :=
  let custom := match o.output with
    | some (.custom content) => some (Tree.object [("content", .text content)])
    | _ => none
  let mcp := match o.output with
    | some (.mcp result) => some result.layout
    | _ => none
  .record [
    ("custom", custom),
    ("index", o.index.map .ofInt32),
    ("mcp", mcp),
    ("tool_call_id", some (.text o.callId)),
    ("tool_name", some (.text o.toolName)),
    ("type", some (.text o.type.name))]

/-- At most one of two fields holds the output of the call `callId`. -/
def outputOfWire (callId : String) (fs : Fields) : Except Malformed (Option (ToolOutput E)) :=
  match fs.lookup "custom", fs.lookup "mcp" with
  | none, none => .ok none
  | some w, none => do
    let custom ← w.fieldsOf "custom"
    return some (.custom (← custom.text "content"))
  | none, some w => (some ∘ .mcp) <$> McpResult.ofWire read w
  | some _, some _ => .error (.bothOutputs callId)

def ofWire (w : Tree) : Except Malformed (ToolCallOutput E) := do
  let fs ← w.fieldsOf "tool_call_output"
  let index ← fs.index? "index"
  let type ← fs.tag ToolOutputType "type" "tool call output type"
  let callId ← fs.text "tool_call_id"
  let toolName ← fs.text "tool_name"
  let output ← outputOfWire read callId fs
  return { index, type, callId, toolName, output }

end ToolCallOutput

namespace ToolListing

def layout (l : ToolListing) : Tree :=
  .record [
    ("description", some (.text l.description)),
    ("input_schema", l.inputSchema),
    ("name", some (.text l.name))]

def ofWire (w : Tree) : Except Malformed ToolListing := do
  let fs ← w.fieldsOf "tool"
  let name ← fs.text "name"
  let description ← fs.text "description"
  return { name, description, inputSchema := fs.lookup "input_schema" }

end ToolListing

namespace McpListTools

def layout (l : McpListTools) : Tree :=
  .object [
    ("error", .text l.error),
    ("server_label", .text l.serverLabel),
    ("tools", .array (l.tools.map (·.layout)))]

def ofWire (w : Tree) : Except Malformed McpListTools := do
  let fs ← w.fieldsOf "mcp_list_tools"
  let serverLabel ← fs.text "server_label"
  let listings ← fs.array "tools"
  let tools ← listings.mapM ToolListing.ofWire
  let error ← fs.text "error"
  return { serverLabel, tools, error }

end McpListTools

namespace ApprovalRequest

def layout (q : ApprovalRequest) : Tree :=
  .object [("arguments", .text q.arguments), ("name", .text q.name), ("server_label", .text q.serverLabel)]

def ofWire (w : Tree) : Except Malformed ApprovalRequest := do
  let fs ← w.fieldsOf "mcp_tool_approval_request"
  let name ← fs.text "name"
  let arguments ← fs.text "arguments"
  let serverLabel ← fs.text "server_label"
  return { name, arguments, serverLabel }

end ApprovalRequest

namespace ApprovalResponse

def layout (a : ApprovalResponse) : Tree :=
  .object [("approval_request_id", .text a.requestId), ("approve", .bool a.approve), ("reason", .text a.reason)]

def ofWire (w : Tree) : Except Malformed ApprovalResponse := do
  let fs ← w.fieldsOf "mcp_tool_approval_response"
  let requestId ← fs.text "approval_request_id"
  let approve ← fs.bool "approve"
  let reason ← fs.text "reason"
  return { requestId, approve, reason }

end ApprovalResponse

namespace Payload

def layout : Payload Tree → Tree
  | message m => m.layout
  | reasoning r => r.layout
  | toolCall c => c.layout
  | toolCallOutput o => o.layout
  | mcpListTools l => l.layout
  | mcpToolApprovalRequest q => q.layout
  | mcpToolApprovalResponse a => a.layout

/-- Reads a payload of type `held`. -/
def ofWire (held : BlockType) (w : Tree) : Except Malformed (Payload E) :=
  match held with
  | .message => message <$> Message.ofWire read w
  | .reasoning => reasoning <$> Reasoning.ofWire read w
  | .toolCall => toolCall <$> ToolCall.ofWire read w
  | .toolCallOutput => toolCallOutput <$> ToolCallOutput.ofWire read w
  | .mcpListTools => mcpListTools <$> McpListTools.ofWire w
  | .mcpToolApprovalRequest => mcpToolApprovalRequest <$> ApprovalRequest.ofWire w
  | .mcpToolApprovalResponse => mcpToolApprovalResponse <$> ApprovalResponse.ofWire w

end Payload

namespace Block

/-- Every payload key comes before the key of the type. -/
def layout (b : Block Tree) : Tree :=
  let type := ("type", Tree.text b.type.name)
  match b.payload with
  | none => .object [type]
  | some held => .object [(held.type.name, held.layout), type]

/-- The payloads among the fields of a block, in the order of their types. -/
def payloadFields (fs : Fields) : List (BlockType × Tree) :=
  (Named.all : List BlockType).filterMap fun held => (fs.lookup held.name).map (held, ·)

/-- A block without a payload is read; validation reports it. -/
def ofWire (w : Tree) : Except Malformed (Block E) := do
  let fs ← w.fieldsOf "block"
  let type ← fs.tag BlockType "type" "content block type"
  match payloadFields fs with
  | [] => return { type, payload := none }
  | [(held, w)] => return { type, payload := some (← Payload.ofWire read held w) }
  | _ => .error (.manyPayloads type)

end Block

end TurnCodec
