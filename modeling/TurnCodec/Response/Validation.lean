import TurnCodec.Report
import TurnCodec.Response.Basic
/-! Validation: a block holds the payload its type names, and a tool call output
the output its own type names. The first block that does not is reported. -/

namespace TurnCodec

/-- What is wrong with a block. -/
inductive Flaw
  | emptyBlock (type : BlockType)
  | mismatch (type held : BlockType)
  | emptyOutput (callId : String)
  | outputMismatch (type held : ToolOutputType)
deriving DecidableEq

/-- A flaw and the position of the block that has it. -/
structure Violation where
  block : Nat
  flaw : Flaw
deriving DecidableEq

/-- The word for an output in a report. -/
def ToolOutputType.outputWord : ToolOutputType → String
  | custom => "custom"
  | mcp => "mcp"

def Flaw.report : Flaw → Report
  | emptyBlock type =>
    ⟨.variantMismatch, "Content block of type " ++ type.name ++ " has no payload.", "empty_block", ""⟩
  | mismatch type held =>
    ⟨.variantMismatch, "Content block of type " ++ type.name ++ " holds a " ++ held.name ++ " payload.",
      "block_type_mismatch", "Build blocks with the make_*_block helpers."⟩
  | emptyOutput callId =>
    ⟨.variantMismatch, "Tool call output '" ++ callId ++ "' has no output payload.", "empty_tool_output", ""⟩
  | outputMismatch type held =>
    ⟨.variantMismatch, "Tool call output type " ++ type.name ++ " holds a " ++ held.outputWord ++ " output.",
      "tool_output_type_mismatch", "Use make_tool_call_output_block so the type follows the output."⟩

def Violation.report (v : Violation) : Report :=
  v.flaw.report.under ("Block " ++ toString v.block ++ ": ")

variable {E : Type}

def ToolCallOutput.validate (o : ToolCallOutput E) : Except Flaw Unit :=
  match o.output with
  | none => .error (.emptyOutput o.callId)
  | some held => if held.type = o.type then .ok () else .error (.outputMismatch o.type held.type)

def Block.validate (b : Block E) : Except Flaw Unit :=
  match b.payload with
  | none => .error (.emptyBlock b.type)
  | some held =>
    if held.type ≠ b.type then .error (.mismatch b.type held.type)
    else
      match held with
      | .toolCallOutput o => o.validate
      | _ => .ok ()

/-- The first flaw among blocks, the first of which is at position `i`. -/
def Block.validateFrom (i : Nat) : List (Block E) → Except Violation Unit
  | [] => .ok ()
  | b :: bs =>
    match b.validate with
    | .error flaw => .error ⟨i, flaw⟩
    | .ok () => validateFrom (i + 1) bs

def Response.validate (r : Response E) : Except Violation Unit :=
  Block.validateFrom 0 r.blocks

end TurnCodec
