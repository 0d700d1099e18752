import TurnCodec.Response.Basic
/-! Running over all metadata of a response in document order: blocks in order,
inside a block its parts, fragments or output before its own metadata, and each
metadata by key. The first failure ends the run. -/

namespace TurnCodec

variable {E E' ε : Type}

def Media.traverse (f : String → E → Except ε E') (m : Media E) : Except ε (Media E') :=
  return { m with extra := ← m.extra.traverse f }

def InputPart.traverse (f : String → E → Except ε E') : InputPart E → Except ε (InputPart E')
  | text content => return text content
  | image m detail => return image (← m.traverse f) detail
  | audio m => return audio (← m.traverse f)
  | video m => return video (← m.traverse f)
  | file m name => return file (← m.traverse f) name

def OutputPart.traverse (f : String → E → Except ε E') : OutputPart E → Except ε (OutputPart E')
  | text content extra => return text content (← extra.traverse f)
  | image m => return image (← m.traverse f)
  | audio m => return audio (← m.traverse f)
  | video m => return video (← m.traverse f)

def Content.traverse (f : String → E → Except ε E') : Content E → Except ε (Content E')
  | text s => return text s
  | input parts => return input (← parts.mapM (·.traverse f))
  | output parts => return output (← parts.mapM (·.traverse f))

def Message.traverse (f : String → E → Except ε E') (m : Message E) : Except ε (Message E') := do
  let content ← m.content.traverse f
  let extra ← m.extra.traverse f
  return { index := m.index, role := m.role, content, extra }

def SummaryFragment.traverse (f : String → E → Except ε E') (s : SummaryFragment E) : Except ε (SummaryFragment E') :=
  return { text := s.text, extra := ← s.extra.traverse f }

def Reasoning.traverse (f : String → E → Except ε E') (r : Reasoning E) : Except ε (Reasoning E') := do
  let summary ← r.summary.mapM (·.traverse f)
  let extra ← r.extra.traverse f
  return { index := r.index, summaryIndex := r.summaryIndex, summary, encryptedContent := r.encryptedContent, extra }

def ToolCall.traverse (f : String → E → Except ε E') (c : ToolCall E) : Except ε (ToolCall E') :=
  return { index := c.index, type := c.type, id := c.id, name := c.name, arguments := c.arguments,
           extra := ← c.extra.traverse f }

def McpResult.traverse (f : String → E → Except ε E') (r : McpResult E) : Except ε (McpResult E') :=
  return { content := r.content, approvalRequestId := r.approvalRequestId, status := r.status, error := r.error,
           extra := ← r.extra.traverse f }

def ToolOutput.traverse (f : String → E → Except ε E') : ToolOutput E → Except ε (ToolOutput E')
  | custom content => return custom content
  | mcp result => return mcp (← result.traverse f)

def ToolCallOutput.traverse (f : String → E → Except ε E') (o : ToolCallOutput E) : Except ε (ToolCallOutput E') :=
  return { index := o.index, type := o.type, callId := o.callId, toolName := o.toolName,
           output := ← o.output.mapM (·.traverse f) }

def Payload.traverse (f : String → E → Except ε E') : Payload E → Except ε (Payload E')
  | message m => return message (← m.traverse f)
  | reasoning r => return reasoning (← r.traverse f)
  | toolCall c => return toolCall (← c.traverse f)
  | toolCallOutput o => return toolCallOutput (← o.traverse f)
  | mcpListTools l => return mcpListTools l
  | mcpToolApprovalRequest q => return mcpToolApprovalRequest q
  | mcpToolApprovalResponse a => return mcpToolApprovalResponse a

def Block.traverse (f : String → E → Except ε E') (b : Block E) : Except ε (Block E') :=
  return { type := b.type, payload := ← b.payload.mapM (·.traverse f) }

def Response.traverse (f : String → E → Except ε E') (r : Response E) : Except ε (Response E') :=
  return { id := r.id, finish := r.finish, usage := r.usage, blocks := ← r.blocks.mapM (·.traverse f) }

end TurnCodec
