import TurnCodec.Proofs.Outcome
import TurnCodec.Response.Alternative
import TurnCodec.Response.Validation
/-! Which responses are valid, and which block is to blame for one that is not: the first that does
not hold what its type names, whatever comes after it. -/

namespace TurnCodec

variable {E : Type}

theorem ToolCallOutput.validate_eq_ok {o : ToolCallOutput E} : o.validate = .ok () ↔ o.Matched := by
  obtain ⟨index, type, callId, toolName, output⟩ := o
  rcases output with _ | held
  · exact iff_of_false nofun type.alternative_ne_zero
  · simp only [validate, Matched, ToolOutput.alternative_some]
    by_cases h : held.type = type
    · simp [h]
    · rw [if_neg h]
      exact iff_of_false nofun fun hsame => h (ToolOutputType.alternative_injective hsame)

namespace Block

theorem validate_eq_ok {b : Block E} : b.validate = .ok () ↔ b.Matched := by
  obtain ⟨type, payload⟩ := b
  rcases payload with _ | held
  · exact iff_of_false nofun fun h => type.alternative_ne_zero h.payload
  by_cases h : held.type = type
  · subst h
    have hpayload : Payload.alternative (some held) = held.type.alternative := held.alternative_some
    cases held with
    | toolCallOutput o =>
      refine ToolCallOutput.validate_eq_ok.trans ⟨fun ho => ⟨hpayload, fun o' ho' => ?_⟩, fun hb => hb.output o rfl⟩
      obtain rfl : o = o' := by simpa using ho'
      exact ho
    | message | reasoning | toolCall | mcpListTools | mcpToolApprovalRequest | mcpToolApprovalResponse =>
      refine iff_of_true rfl ⟨hpayload, fun o ho => ?_⟩
      cases ho
  · have hflaw : validate ⟨type, some held⟩ = .error (.mismatch type held.type) := if_pos h
    rw [hflaw]
    refine iff_of_false nofun fun hb => h (BlockType.alternative_injective ?_)
    rw [← held.alternative_some]
    exact hb.payload

theorem exists_flaw {b : Block E} : (∃ f, b.validate = .error f) ↔ ¬ b.Matched := by
  rw [← validate_eq_ok]
  cases b.validate <;> simp

theorem validateFrom_eq_ok {i : Nat} {bs : List (Block E)} : validateFrom i bs = .ok () ↔ ∀ b ∈ bs, b.Matched := by
  induction bs generalizing i with
  | nil => simp [validateFrom]
  | cons b bs ih =>
    rw [validateFrom, List.forall_mem_cons, ← ih (i := i + 1), ← validate_eq_ok]
    rcases b.validate with f | _
    · simp
    · simp

theorem validateFrom_append {i : Nat} {before bs : List (Block E)} (h : ∀ c ∈ before, c.Matched) :
    validateFrom i (before ++ bs) = validateFrom (i + before.length) bs := by
  induction before generalizing i with
  | nil => rfl
  | cons c before ih =>
    obtain ⟨hc, hbefore⟩ := List.forall_mem_cons.1 h
    rw [List.cons_append, validateFrom, validate_eq_ok.2 hc]
    simp only [ih hbefore, List.length_cons]
    rw [Nat.add_right_comm, Nat.add_assoc]

/-- The scan stops at the first block with a flaw; what is behind it is not looked at. -/
theorem validateFrom_eq_error {i : Nat} {bs : List (Block E)} {v : Violation} :
    validateFrom i bs = .error v ↔ ∃ before b after, bs = before ++ b :: after ∧ (∀ c ∈ before, c.Matched) ∧
      b.validate = .error v.flaw ∧ v.block = i + before.length := by
  constructor
  · induction bs generalizing i with
    | nil => exact nofun
    | cons b bs ih =>
      intro h
      rw [validateFrom] at h
      rcases hb : b.validate with f | _
      · rw [hb] at h
        cases h
        exact ⟨[], b, bs, rfl, List.forall_mem_nil _, hb, rfl⟩
      · rw [hb] at h
        obtain ⟨before, d, after, rfl, hbefore, hd, hi⟩ := ih h
        refine ⟨b :: before, d, after, rfl, List.forall_mem_cons.2 ⟨validate_eq_ok.1 hb, hbefore⟩, hd, ?_⟩
        rw [hi, List.length_cons]
        omega
  · rintro ⟨before, b, after, rfl, hbefore, hb, hi⟩
    rw [validateFrom_append hbefore, validateFrom, hb, ← hi]

end Block

/-- A response is valid if every block holds what its type names. What is said of any other response
is said of its first block that does not, led by the position of that block. -/
theorem Response.validate_first (r : Response E) :
    (r.validate = .ok () ↔ ∀ b ∈ r.blocks, b.Matched) ∧
    ∀ p, r.validate.mapError Violation.report = .error p ↔
      ∃ before b after q, r.blocks = before ++ b :: after ∧ (∀ c ∈ before, c.Matched) ∧ ¬ b.Matched ∧
        b.validate.mapError Flaw.report = .error q ∧
        p = ⟨q.kind, "Block " ++ toString before.length ++ ": " ++ q.message, q.code, q.hint⟩ := by
  refine ⟨Block.validateFrom_eq_ok, fun p => ?_⟩
  have blamed : ∀ v : Violation, r.validate = .error v ↔ ∃ before b after, r.blocks = before ++ b :: after ∧
      (∀ c ∈ before, c.Matched) ∧ b.validate = .error v.flaw ∧ v.block = before.length := by
    intro v
    rw [Response.validate, Block.validateFrom_eq_error]
    simp only [Nat.zero_add]
  constructor
  · intro h
    rcases hv : r.validate with v | _
    · rw [hv] at h
      obtain rfl := Except.error.inj h
      obtain ⟨before, b, after, hsplit, hbefore, hb, hi⟩ := (blamed v).1 hv
      refine ⟨before, b, after, v.flaw.report, hsplit, hbefore, Block.exists_flaw.1 ⟨_, hb⟩, by rw [hb]; rfl, ?_⟩
      rw [Violation.report, hi]
      rfl
    · rw [hv] at h
      cases h
  · rintro ⟨before, b, after, q, hsplit, hbefore, -, hq, rfl⟩
    rcases hb : b.validate with f | _
    · rw [hb] at hq
      obtain rfl := Except.error.inj hq
      rw [(blamed ⟨before.length, f⟩).2 ⟨before, b, after, hsplit, hbefore, hb, rfl⟩]
      rfl
    · rw [hb] at hq
      cases hq

end TurnCodec
