import TurnCodec.Proofs.Offenders
import TurnCodec.Proofs.Reports
import TurnCodec.Response.Builders
/-! What builders make is valid. A builder takes the type of a block from the payload it is given, and
the type of a tool call output from the output, so neither can disagree with what it names. -/

namespace TurnCodec

section
variable {E : Type}

namespace Block

/-- What the builders of blocks make. -/
inductive Built : Block E → Prop
  | message (m : Message E) : Built (.message m)
  | textMessage (role : Role) (text : String) (index : Option Int32) : Built (.textMessage role text index)
  | userMessage (parts : List (InputPart E)) (index : Option Int32) : Built (.userMessage parts index)
  | assistantMessage (parts : List (OutputPart E)) (index : Option Int32) : Built (.assistantMessage parts index)
  | reasoning (r : Reasoning E) : Built (.reasoning r)
  | toolCall (c : ToolCall E) : Built (.toolCall c)
  | toolOutput (callId toolName : String) (output : ToolOutput E) (index : Option Int32) :
      Built (.toolOutput callId toolName output index)
  | ofToolCallOutput {o : ToolCallOutput E} {b : Block E} (h : Block.ofToolCallOutput o = .ok b) : Built b
  | mcpListTools (l : McpListTools) : Built (.mcpListTools l)
  | approvalRequest (q : ApprovalRequest) : Built (.approvalRequest q)
  | approvalResponse (a : ApprovalResponse) : Built (.approvalResponse a)

theorem matched_ofPayload {p : Payload E} (h : ∀ o, p = .toolCallOutput o → o.Matched) : (ofPayload p).Matched where
  payload := p.alternative_some
  output o ho := h o (Option.some.inj ho)

/-- An output that is there passes under its own type, whatever type was given. -/
theorem ofToolCallOutput_some (index : Option Int32) (type : ToolOutputType) (callId toolName : String)
    (held : ToolOutput E) : ofToolCallOutput ⟨index, type, callId, toolName, some held⟩ =
      .ok ⟨.toolCallOutput, some (.toolCallOutput ⟨index, held.type, callId, toolName, some held⟩)⟩ := by
  have hvalid : (ToolCallOutput.mk index held.type callId toolName (some held)).validate = .ok () := if_pos rfl
  simp only [ofToolCallOutput, Option.map_some, Option.getD_some, hvalid]
  rfl

theorem ofToolCallOutput_eq_ok {o : ToolCallOutput E} {b : Block E} : ofToolCallOutput o = .ok b ↔
    ∃ held, o.output = some held ∧
      b = ⟨.toolCallOutput, some (.toolCallOutput ⟨o.index, held.type, o.callId, o.toolName, o.output⟩)⟩ := by
  obtain ⟨index, type, callId, toolName, output⟩ := o
  rcases output with _ | held
  · exact iff_of_false nofun nofun
  · rw [ofToolCallOutput_some, Except.ok.injEq, eq_comm]
    simp

theorem ofToolCallOutput_eq_error {o : ToolCallOutput E} {f : Flaw} :
    ofToolCallOutput o = .error f ↔ o.output = none ∧ f = .emptyOutput o.callId := by
  obtain ⟨index, type, callId, toolName, output⟩ := o
  rcases output with _ | held
  · change Except.error (Flaw.emptyOutput callId) = .error f ↔ _
    rw [Except.error.injEq, eq_comm, and_iff_right rfl]
  · rw [ofToolCallOutput_some]
    exact iff_of_false nofun nofun

theorem Built.matched {b : Block E} (h : b.Built) : b.Matched := by
  cases h with
  | toolOutput callId toolName output index =>
    refine matched_ofPayload fun o ho => ?_
    cases ho
    exact output.alternative_some
  | ofToolCallOutput h =>
    obtain ⟨held, hheld, rfl⟩ := ofToolCallOutput_eq_ok.1 h
    refine matched_ofPayload (p := .toolCallOutput _) fun o ho => ?_
    cases ho
    rw [ToolCallOutput.Matched, hheld, ToolOutput.alternative_some]
  | message | textMessage | userMessage | assistantMessage | reasoning | toolCall | mcpListTools | approvalRequest
    | approvalResponse =>
    refine matched_ofPayload fun o ho => ?_
    cases ho

end Block

end

namespace Codec

variable {F : TypeFamily} {c : Codec F} {r : Response (Extension F)}

/-- With a valid response the gate is passed, so encoding fails only where writing does. -/
theorem encodeWith_valid {write : Tree → List UInt8} {f : EncodeFault} (hr : r.validate = .ok ())
    (h : (c.encodeWith write r).value = .error f) : ∃ u, r.toWire c.registry = .error u ∧ f = .unwritable u := by
  have hgate : (if c.options.validateOnEncode then r.validate else .ok ()) = .ok () := by
    rw [hr, ite_self]
  have hwire : c.wireOf r = (r.toWire c.registry).mapError .unwritable := by
    rw [wireOf, hgate]
    cases r.toWire c.registry <;> rfl
  rw [encodeWith, hwire] at h
  rcases hu : r.toWire c.registry with u | w
  · rw [hu] at h
    exact ⟨u, rfl, (Except.error.inj h).symm⟩
  · rw [hu] at h
    cases h

end Codec

/-- Built blocks are valid, by themselves and in a response, whatever their arguments. The one builder
that can fail does so for an empty output, and otherwise sets the type and no other field. -/
theorem Block.built_valid {F : TypeFamily} :
    (∀ b : Block (Extension F), b.Built → b.validate = .ok ()) ∧
    (∀ id seed finish usage (bs : List (Block (Extension F))), (∀ b ∈ bs, b.Built) →
      let r := { (Response.named id seed : Response (Extension F)) with finish, usage, blocks := bs }
      r.validate = .ok () ∧
        ∀ (c : Codec F) write f, (c.encodeWith write r).value = .error f → f.report.kind ≠ .variantMismatch) ∧
    (∀ (o : ToolCallOutput (Extension F)) p, (ofToolCallOutput o).mapError Flaw.report = .error p ↔ o.output = none ∧
      p = ⟨.variantMismatch, "Tool call output '" ++ o.callId ++ "' has no output payload.", "empty_tool_output", ""⟩) ∧
    ∀ (o : ToolCallOutput (Extension F)) b, ofToolCallOutput o = .ok b ↔ ∃ held, o.output = some held ∧
      b = ⟨.toolCallOutput, some (.toolCallOutput ⟨o.index, held.type, o.callId, o.toolName, o.output⟩)⟩ := by
  refine ⟨fun b hb => validate_eq_ok.2 hb.matched, fun id seed finish usage bs hbs => ?_, fun o p => ?_, fun o b => ?_⟩
  · intro r
    have hr : r.validate = .ok () := validateFrom_eq_ok.2 fun b hb => (hbs b hb).matched
    refine ⟨hr, fun c write f hf => ?_⟩
    obtain ⟨u, -, rfl⟩ := Codec.encodeWith_valid hr hf
    rcases u.kind with hkind | ⟨hkind, -⟩ <;> simp [EncodeFault.report, hkind]
  · constructor
    · intro h
      rcases hf : ofToolCallOutput o with f | b
      · rw [hf] at h
        obtain ⟨hempty, rfl⟩ := ofToolCallOutput_eq_error.1 hf
        exact ⟨hempty, (Except.error.inj h).symm⟩
      · rw [hf] at h
        cases h
    · rintro ⟨hempty, rfl⟩
      rw [ofToolCallOutput_eq_error.2 ⟨hempty, rfl⟩]
      rfl
  · exact ofToolCallOutput_eq_ok

/-- A lookup that was answered, under the type of another kind of output. -/
def ToolCallOutput.stale : ToolCallOutput (Extension .truth) where
  type := .mcp
  callId := "call"
  toolName := "lookup"
  output := some (.custom "found")

/-- A message with a mark of a type that need not be registered. -/
def Message.seen : Message (Extension .truth) := { extra := Dict.empty.put "seen" (.typed () true) }

/-- The message, then the answer under its own type. -/
def Response.answered : Response (Extension .truth) where
  id := "turn"
  blocks := [.message .seen, ⟨.toolCallOutput, some (.toolCallOutput { ToolCallOutput.stale with type := .custom })⟩]

theorem Block.built_valid_stale : (∃ b ∈ Response.answered.blocks, ofToolCallOutput .stale = .ok b) ∧
    (∀ b ∈ Response.answered.blocks, b.validate = .ok ()) ∧ Response.answered.validate = .ok () ∧
    ∃ f, (Codec.encode ⟨∅, {}⟩ Response.answered).value = .error f ∧ f.report.kind ≠ .variantMismatch := by
  obtain ⟨valid, responses, -, answered⟩ := built_valid (F := .truth)
  have made : ofToolCallOutput .stale = .ok ⟨.toolCallOutput, _⟩ := (answered _ _).2 ⟨_, rfl, rfl⟩
  have built : ∀ b ∈ Response.answered.blocks, b.Built := by
    simp only [Response.answered, List.forall_mem_cons]
    exact ⟨.message _, .ofToolCallOutput made, List.forall_mem_nil _⟩
  obtain ⟨hr, refused⟩ := responses "turn" 0 none none _ built
  exact ⟨⟨_, List.mem_of_getElem? (i := 1) rfl, made⟩, fun b hb => valid b (built b hb), hr,
    .unwritable (.unregistered "seen" "Truth"), rfl, refused ⟨∅, {}⟩ Tree.toCbor _ rfl⟩

end TurnCodec
