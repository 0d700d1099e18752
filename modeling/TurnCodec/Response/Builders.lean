import TurnCodec.Response.Validation
/-! Builders of responses and blocks. A built block has the type of its payload,
and a built tool call output the type of its output. -/

namespace TurnCodec

variable {E : Type}

/-- A fresh response id: a fixed word and sixteen lowercase hexadecimal digits. -/
def freshId (seed : UInt64) : String :=
  "resp-" ++ String.ofList ((List.range 16).map fun i => Nat.digitChar ((seed.toNat >>> (4 * (15 - i))) % 16))

/-- An empty response under the given id, or under a fresh one where none is given. -/
def Response.named (id : String) (seed : UInt64) : Response E :=
  { id := if id.isEmpty then freshId seed else id }

namespace Block

def ofPayload (p : Payload E) : Block E := ⟨p.type, some p⟩

def message (m : Message E) : Block E := ofPayload (.message m)

def textMessage (role : Role) (text : String) (index : Option Int32) : Block E :=
  message { role, content := .text text, index }

def userMessage (parts : List (InputPart E)) (index : Option Int32) : Block E :=
  message { role := .user, content := .input parts, index }

def assistantMessage (parts : List (OutputPart E)) (index : Option Int32) : Block E :=
  message { role := .assistant, content := .output parts, index }

def reasoning (r : Reasoning E) : Block E := ofPayload (.reasoning r)

def toolCall (c : ToolCall E) : Block E := ofPayload (.toolCall c)

def toolOutput (callId toolName : String) (output : ToolOutput E) (index : Option Int32) : Block E :=
  ofPayload (.toolCallOutput { index, type := output.type, callId, toolName, output := some output })

/-- Sets the type of the output held; an empty output is refused. -/
def ofToolCallOutput (o : ToolCallOutput E) : Except Flaw (Block E) := do
  let typed := { o with type := (o.output.map ToolOutput.type).getD o.type }
  typed.validate
  return ofPayload (.toolCallOutput typed)

def mcpListTools (l : McpListTools) : Block E := ofPayload (.mcpListTools l)

def approvalRequest (q : ApprovalRequest) : Block E := ofPayload (.mcpToolApprovalRequest q)

def approvalResponse (a : ApprovalResponse) : Block E := ofPayload (.mcpToolApprovalResponse a)

end Block

end TurnCodec
