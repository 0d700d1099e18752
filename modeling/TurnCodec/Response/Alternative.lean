import TurnCodec.Response.Block
/-! The alternatives of a payload and of an output by number, 0 for none. The payloads come in the
order of their types, so a type names the alternative that is one past its own position. -/

namespace TurnCodec

variable {E : Type}

def Payload.alternative : Option (Payload E) → Nat
  | none => 0
  | some (message _) => 1
  | some (reasoning _) => 2
  | some (toolCall _) => 3
  | some (toolCallOutput _) => 4
  | some (mcpListTools _) => 5
  | some (mcpToolApprovalRequest _) => 6
  | some (mcpToolApprovalResponse _) => 7

def BlockType.alternative (t : BlockType) : Nat := Named.position t + 1

def ToolOutput.alternative : Option (ToolOutput E) → Nat
  | none => 0
  | some (custom _) => 1
  | some (mcp _) => 2

def ToolOutputType.alternative (t : ToolOutputType) : Nat := if t = custom then 1 else 2

/-- Whether a tool call output holds the alternative that its type names. -/
def ToolCallOutput.Matched (o : ToolCallOutput E) : Prop := ToolOutput.alternative o.output = o.type.alternative

/-- Whether a block holds the alternative that its type names, and so does a tool call output in it. -/
structure Block.Matched (b : Block E) : Prop where
  payload : Payload.alternative b.payload = b.type.alternative
  output : ∀ o, b.payload = some (.toolCallOutput o) → o.Matched

theorem BlockType.alternative_injective {s t : BlockType} (h : s.alternative = t.alternative) : s = t :=
  Named.position_injective (Nat.succ.inj h)

theorem ToolOutputType.alternative_injective {s t : ToolOutputType} (h : s.alternative = t.alternative) : s = t := by
  cases s <;> cases t <;> simp_all [alternative]

@[simp]
theorem Payload.alternative_some (p : Payload E) : alternative (some p) = p.type.alternative := by
  cases p <;> rfl

@[simp]
theorem ToolOutput.alternative_some (o : ToolOutput E) : alternative (some o) = o.type.alternative := by
  cases o <;> rfl

theorem BlockType.alternative_ne_zero (t : BlockType) : 0 ≠ t.alternative := (Nat.succ_ne_zero _).symm

theorem ToolOutputType.alternative_ne_zero (t : ToolOutputType) : 0 ≠ t.alternative := by
  cases t <;> decide

end TurnCodec
