import TurnCodec.Response.Basic
/-! Equality of responses, field by field, over an equality of the values of
metadata. Trees in them compare as trees do. -/

namespace TurnCodec

variable {E : Type} [BEq E]

instance : BEq (Media E) :=
  ⟨fun a b => a.url == b.url && a.base64Data == b.base64Data && a.mimeType == b.mimeType && a.extra == b.extra⟩

def InputPart.beq : InputPart E → InputPart E → Bool
  | text s, text t => s == t
  | image m d, image n e => m == n && d == e
  | audio m, audio n => m == n
  | video m, video n => m == n
  | file m s, file n t => m == n && s == t
  | _, _ => false

instance : BEq (InputPart E) := ⟨InputPart.beq⟩

def OutputPart.beq : OutputPart E → OutputPart E → Bool
  | text s x, text t y => s == t && x == y
  | image m, image n => m == n
  | audio m, audio n => m == n
  | video m, video n => m == n
  | _, _ => false

instance : BEq (OutputPart E) := ⟨OutputPart.beq⟩

def Content.beq : Content E → Content E → Bool
  | text s, text t => s == t
  | input ps, input qs => ps == qs
  | output ps, output qs => ps == qs
  | _, _ => false

instance : BEq (Content E) := ⟨Content.beq⟩

instance : BEq (Message E) :=
  ⟨fun a b => a.index == b.index && a.role == b.role && a.content == b.content && a.extra == b.extra⟩

instance : BEq (SummaryFragment E) := ⟨fun a b => a.text == b.text && a.extra == b.extra⟩

instance : BEq (Reasoning E) :=
  ⟨fun a b => a.index == b.index && a.summaryIndex == b.summaryIndex && a.summary == b.summary &&
    a.encryptedContent == b.encryptedContent && a.extra == b.extra⟩

instance : BEq (ToolCall E) :=
  ⟨fun a b => a.index == b.index && a.type == b.type && a.id == b.id && a.name == b.name &&
    a.arguments == b.arguments && a.extra == b.extra⟩

instance : BEq (McpResult E) :=
  ⟨fun a b => a.content == b.content && a.approvalRequestId == b.approvalRequestId && a.status == b.status &&
    a.error == b.error && a.extra == b.extra⟩

def ToolOutput.beq : ToolOutput E → ToolOutput E → Bool
  | custom s, custom t => s == t
  | mcp a, mcp b => a == b
  | _, _ => false

instance : BEq (ToolOutput E) := ⟨ToolOutput.beq⟩

instance : BEq (ToolCallOutput E) :=
  ⟨fun a b => a.index == b.index && a.type == b.type && a.callId == b.callId && a.toolName == b.toolName &&
    a.output == b.output⟩

instance : BEq ToolListing :=
  ⟨fun a b => a.name == b.name && a.description == b.description && a.inputSchema == b.inputSchema⟩

instance : BEq McpListTools :=
  ⟨fun a b => a.serverLabel == b.serverLabel && a.tools == b.tools && a.error == b.error⟩

def Payload.beq : Payload E → Payload E → Bool
  | message a, message b => a == b
  | reasoning a, reasoning b => a == b
  | toolCall a, toolCall b => a == b
  | toolCallOutput a, toolCallOutput b => a == b
  | mcpListTools a, mcpListTools b => a == b
  | mcpToolApprovalRequest a, mcpToolApprovalRequest b => a == b
  | mcpToolApprovalResponse a, mcpToolApprovalResponse b => a == b
  | _, _ => false

instance : BEq (Payload E) := ⟨Payload.beq⟩

instance : BEq (Block E) := ⟨fun a b => a.type == b.type && a.payload == b.payload⟩

instance : BEq (Response E) :=
  ⟨fun a b => a.id == b.id && a.finish == b.finish && a.usage == b.usage && a.blocks == b.blocks⟩

end TurnCodec
