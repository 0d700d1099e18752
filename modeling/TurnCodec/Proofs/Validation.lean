import TurnCodec.Proofs.Metadata
import TurnCodec.Response.Validation
/-! Validation looks at types and at where payloads are, never at metadata. -/

namespace TurnCodec

open Bearing

variable {E E' : Type} (f : String → E → E')

theorem Payload.type_map (p : Payload E) : (map f p).type = p.type := by
  cases p <;> rfl

theorem ToolOutput.type_map (o : ToolOutput E) : (map f o).type = o.type := by
  cases o <;> rfl

theorem ToolCallOutput.validate_map (o : ToolCallOutput E) : (map f o).validate = o.validate := by
  obtain ⟨index, type, callId, toolName, output⟩ := o
  cases output with
  | none => rfl
  | some held =>
    change (if (map f held).type = type then _ else Except.error (Flaw.outputMismatch type (map f held).type)) = _
    rw [ToolOutput.type_map]
    rfl

theorem Block.validate_map (b : Block E) : (map f b).validate = b.validate := by
  obtain ⟨type, payload⟩ := b
  cases payload with
  | none => rfl
  | some held =>
    rw [validate, validate, show (map f (Block.mk type (some held))).payload = some (map f held) from rfl]
    simp only [Payload.type_map]
    cases held with
    | toolCallOutput o => exact congrArg (ite _ _) (ToolCallOutput.validate_map f o)
    | _ => rfl

/-- Validation goes by what it says of each block. -/
theorem Block.validateFrom_congr (i : Nat) {bs : List (Block E)} {cs : List (Block E')}
    (h : bs.map validate = cs.map validate) : validateFrom i bs = validateFrom i cs := by
  induction bs generalizing i cs with
  | nil =>
    rw [List.map_nil, eq_comm, List.map_eq_nil_iff] at h
    rw [h, validateFrom, validateFrom]
  | cons b bs ih =>
    rw [List.map_cons, eq_comm, List.map_eq_cons_iff] at h
    obtain ⟨c, cs, rfl, hc, hcs⟩ := h
    rw [validateFrom, validateFrom, hc, ih _ hcs.symm]

theorem Response.validate_map (r : Response E) : (map f r).validate = r.validate := by
  apply Block.validateFrom_congr
  change (r.blocks.map (map f)).map Block.validate = r.blocks.map Block.validate
  rw [List.map_map]
  exact List.map_congr_left fun b _ => b.validate_map f

end TurnCodec
