import TurnCodec.Response.Part
import TurnCodec.Tree.Basic
/-! Content blocks. A block has a type and a payload, and nothing in the data
makes them agree; validation does. -/

namespace TurnCodec

inductive BlockType
  | message
  | reasoning
  | toolCall
  | toolCallOutput
  | mcpListTools
  | mcpToolApprovalRequest
  | mcpToolApprovalResponse
deriving DecidableEq

namespace BlockType

def name : BlockType → String
  | message => "message"
  | reasoning => "reasoning"
  | toolCall => "tool_call"
  | toolCallOutput => "tool_call_output"
  | mcpListTools => "mcp_list_tools"
  | mcpToolApprovalRequest => "mcp_tool_approval_request"
  | mcpToolApprovalResponse => "mcp_tool_approval_response"

instance : Named BlockType where
  all := [message, reasoning, toolCall, toolCallOutput, mcpListTools, mcpToolApprovalRequest,
    mcpToolApprovalResponse]
  name := name
  mem_all := by intro a; cases a <;> decide
  name_injective := by intro a b; cases a <;> cases b <;> decide

end BlockType

/-- Tool messages are tool call output blocks, so no tool has a role. -/
inductive Role
  | system
  | user
  | assistant
deriving DecidableEq

namespace Role

def name : Role → String
  | system => "system"
  | user => "user"
  | assistant => "assistant"

instance : Named Role where
  all := [system, user, assistant]
  name := name
  mem_all := by intro a; cases a <;> decide
  name_injective := by intro a b; cases a <;> cases b <;> decide

end Role

inductive ToolCallType
  | custom
  | mcp
deriving DecidableEq

namespace ToolCallType

def name : ToolCallType → String
  | custom => "custom_tool_call"
  | mcp => "mcp_tool_call"

instance : Named ToolCallType where
  all := [custom, mcp]
  name := name
  mem_all := by intro a; cases a <;> decide
  name_injective := by intro a b; cases a <;> cases b <;> decide

end ToolCallType

inductive ToolOutputType
  | custom
  | mcp
deriving DecidableEq

namespace ToolOutputType

def name : ToolOutputType → String
  | custom => "custom_tool_call_output"
  | mcp => "mcp_tool_call_output"

instance : Named ToolOutputType where
  all := [custom, mcp]
  name := name
  mem_all := by intro a; cases a <;> decide
  name_injective := by intro a b; cases a <;> cases b <;> decide

end ToolOutputType

inductive McpStatus
  | success
  | error
deriving DecidableEq

namespace McpStatus

def name : McpStatus → String
  | success => "success"
  | error => "error"

instance : Named McpStatus where
  all := [success, error]
  name := name
  mem_all := by intro a; cases a <;> decide
  name_injective := by intro a b; cases a <;> cases b <;> decide

end McpStatus

/-- Plain input text, parts from the user, or parts from the model. -/
inductive Content (E : Type)
  | text (s : String)
  | input (parts : List (InputPart E))
  | output (parts : List (OutputPart E))

structure Message (E : Type) where
  index : Option Int32 := none
  role : Role := .user
  content : Content E := .text ""
  extra : Extra E := ∅

structure SummaryFragment (E : Type) where
  text : String := ""
  extra : Extra E := ∅

structure Reasoning (E : Type) where
  index : Option Int32 := none
  summaryIndex : Option Int32 := none
  summary : List (SummaryFragment E) := []
  encryptedContent : String := ""
  extra : Extra E := ∅

/-- `arguments` is the raw text of the arguments. -/
structure ToolCall (E : Type) where
  index : Option Int32 := none
  type : ToolCallType := .custom
  id : String := ""
  name : String := ""
  arguments : String := ""
  extra : Extra E := ∅

structure McpResult (E : Type) where
  content : String := ""
  approvalRequestId : String := ""
  status : McpStatus := .success
  error : String := ""
  extra : Extra E := ∅

inductive ToolOutput (E : Type)
  | custom (content : String)
  | mcp (result : McpResult E)

structure ToolCallOutput (E : Type) where
  index : Option Int32 := none
  type : ToolOutputType := .custom
  callId : String := ""
  toolName : String := ""
  output : Option (ToolOutput E) := none

/-- The input schema is any tree, kept as it is. -/
structure ToolListing where
  name : String := ""
  description : String := ""
  inputSchema : Option Tree := none

structure McpListTools where
  serverLabel : String := ""
  tools : List ToolListing := []
  error : String := ""

structure ApprovalRequest where
  name : String := ""
  arguments : String := ""
  serverLabel : String := ""
deriving DecidableEq

structure ApprovalResponse where
  requestId : String := ""
  approve : Bool := false
  reason : String := ""
deriving DecidableEq

inductive Payload (E : Type)
  | message (m : Message E)
  | reasoning (r : Reasoning E)
  | toolCall (c : ToolCall E)
  | toolCallOutput (o : ToolCallOutput E)
  | mcpListTools (l : McpListTools)
  | mcpToolApprovalRequest (q : ApprovalRequest)
  | mcpToolApprovalResponse (a : ApprovalResponse)

structure Block (E : Type) where
  type : BlockType := .message
  payload : Option (Payload E) := none

variable {E : Type}

def ToolOutput.type : ToolOutput E → ToolOutputType
  | custom _ => .custom
  | mcp _ => .mcp

def Payload.type : Payload E → BlockType
  | message _ => .message
  | reasoning _ => .reasoning
  | toolCall _ => .toolCall
  | toolCallOutput _ => .toolCallOutput
  | mcpListTools _ => .mcpListTools
  | mcpToolApprovalRequest _ => .mcpToolApprovalRequest
  | mcpToolApprovalResponse _ => .mcpToolApprovalResponse

end TurnCodec
