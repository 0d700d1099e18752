import TurnCodec.Proofs.Metadata
import TurnCodec.Proofs.Wire.Contents
import TurnCodec.Response.Equality
/-! Content whose metadata values are replaced by equal ones is equal to what it was. Only
the input schemas of tools need be equal to themselves. -/

namespace TurnCodec

open Bearing

theorem beq_list {α : Type} [BEq α] {f : α → α} {xs : List α} (h : ∀ x ∈ xs, (f x == x) = true) :
    (xs.map f == xs) = true := by
  induction xs with
  | nil => rfl
  | cons x xs ih =>
    obtain ⟨hx, hxs⟩ := List.forall_mem_cons.1 h
    rw [List.map_cons, List.cons_beq_cons, hx, ih hxs]
    rfl

section
variable {E : Type} [BEq E] {h : String → E → E}

theorem beq_contents {X : Type → Type} [Bearing X] [BEq (X E)]
    (each : ∀ {x : X E}, (∀ e ∈ extras x, (h e.1 e.2 == e.2) = true) → (map h x == x) = true) {xs : List (X E)}
    (hxs : ∀ e ∈ xs.flatMap extras, (h e.1 e.2 == e.2) = true) : (xs.map (map h) == xs) = true :=
  beq_list fun x hx => each fun e he => hxs e (List.mem_flatMap.2 ⟨x, hx, he⟩)

theorem Extra.beq_map {x : Extra E} (hx : ∀ e ∈ extras x, (h e.1 e.2 == e.2) = true) : (map h x == x) = true := by
  apply beq_list
  intro e he
  change (e.1 == e.1 && h e.1 e.2 == e.2) = true
  rw [beq_self_eq_true, hx e he]
  rfl

theorem Media.beq_map {m : Media E} (hm : ∀ e ∈ extras m, (h e.1 e.2 == e.2) = true) : (map h m == m) = true := by
  change (m.url == m.url && m.base64Data == m.base64Data && m.mimeType == m.mimeType && map h m.extra == m.extra) = true
  rw [Extra.beq_map hm]
  simp

theorem InputPart.beq_map {p : InputPart E} (hp : ∀ e ∈ extras p, (h e.1 e.2 == e.2) = true) :
    (map h p == p) = true := by
  cases p with
  | text s => exact beq_self_eq_true s
  | image m d =>
    change (map h m == m && d == d) = true
    rw [Media.beq_map hp, beq_self_eq_true]
    rfl
  | audio m => exact Media.beq_map hp
  | video m => exact Media.beq_map hp
  | file m n =>
    change (map h m == m && n == n) = true
    rw [Media.beq_map hp, beq_self_eq_true]
    rfl

theorem OutputPart.beq_map {p : OutputPart E} (hp : ∀ e ∈ extras p, (h e.1 e.2 == e.2) = true) :
    (map h p == p) = true := by
  cases p with
  | text s x =>
    change (s == s && map h x == x) = true
    rw [Extra.beq_map hp, beq_self_eq_true]
    rfl
  | image m => exact Media.beq_map hp
  | audio m => exact Media.beq_map hp
  | video m => exact Media.beq_map hp

theorem Content.beq_map {c : Content E} (hc : ∀ e ∈ extras c, (h e.1 e.2 == e.2) = true) : (map h c == c) = true := by
  cases c with
  | text s => exact beq_self_eq_true s
  | input ps => exact beq_contents InputPart.beq_map hc
  | output ps => exact beq_contents OutputPart.beq_map hc

theorem Message.beq_map {m : Message E} (hm : ∀ e ∈ extras m, (h e.1 e.2 == e.2) = true) : (map h m == m) = true := by
  obtain ⟨hcontent, hextra⟩ := List.forall_mem_append.1 hm
  change (m.index == m.index && m.role == m.role && map h m.content == m.content && map h m.extra == m.extra) = true
  rw [Content.beq_map hcontent, Extra.beq_map hextra]
  simp

theorem SummaryFragment.beq_map {s : SummaryFragment E} (hs : ∀ e ∈ extras s, (h e.1 e.2 == e.2) = true) :
    (map h s == s) = true := by
  change (s.text == s.text && map h s.extra == s.extra) = true
  rw [Extra.beq_map hs, beq_self_eq_true]
  rfl

theorem Reasoning.beq_map {r : Reasoning E} (hr : ∀ e ∈ extras r, (h e.1 e.2 == e.2) = true) :
    (map h r == r) = true := by
  obtain ⟨hsummary, hextra⟩ := List.forall_mem_append.1 hr
  change (r.index == r.index && r.summaryIndex == r.summaryIndex && r.summary.map (map h) == r.summary &&
    r.encryptedContent == r.encryptedContent && map h r.extra == r.extra) = true
  rw [beq_contents SummaryFragment.beq_map hsummary, Extra.beq_map hextra]
  simp

theorem ToolCall.beq_map {c : ToolCall E} (hc : ∀ e ∈ extras c, (h e.1 e.2 == e.2) = true) :
    (map h c == c) = true := by
  change (c.index == c.index && c.type == c.type && c.id == c.id && c.name == c.name &&
    c.arguments == c.arguments && map h c.extra == c.extra) = true
  rw [Extra.beq_map hc]
  simp

theorem McpResult.beq_map {r : McpResult E} (hr : ∀ e ∈ extras r, (h e.1 e.2 == e.2) = true) :
    (map h r == r) = true := by
  change (r.content == r.content && r.approvalRequestId == r.approvalRequestId && r.status == r.status &&
    r.error == r.error && map h r.extra == r.extra) = true
  rw [Extra.beq_map hr]
  simp

theorem ToolCallOutput.beq_map {o : ToolCallOutput E} (ho : ∀ e ∈ extras o, (h e.1 e.2 == e.2) = true) :
    (map h o == o) = true := by
  obtain ⟨index, type, callId, toolName, output⟩ := o
  have houtput : ((map h (ToolCallOutput.mk index type callId toolName output)).output == output) = true := by
    cases output with
    | none => rfl
    | some held =>
      cases held with
      | custom s => exact beq_self_eq_true s
      | mcp r => exact McpResult.beq_map fun e he => ho e (List.mem_flatMap.2 ⟨_, List.mem_singleton_self _, he⟩)
  change (index == index && type == type && callId == callId && toolName == toolName && _ == output) = true
  rw [houtput]
  simp

theorem ToolListing.beq_self {l : ToolListing} (hl : ∀ s, l.inputSchema = some s → (s == s) = true) :
    (l == l) = true := by
  have hschema : (l.inputSchema == l.inputSchema) = true := by
    cases hs : l.inputSchema with
    | none => rfl
    | some s => exact hl s hs
  change (l.name == l.name && l.description == l.description && l.inputSchema == l.inputSchema) = true
  rw [hschema]
  simp

theorem McpListTools.beq_self {l : McpListTools} (hl : ∀ s ∈ l.tools.filterMap (·.inputSchema), (s == s) = true) :
    (l == l) = true := by
  have htools : (l.tools.map id == l.tools) = true :=
    beq_list fun t ht => ToolListing.beq_self fun s hs => hl s (List.mem_filterMap.2 ⟨t, ht, hs⟩)
  rw [List.map_id] at htools
  change (l.serverLabel == l.serverLabel && l.tools == l.tools && l.error == l.error) = true
  rw [htools]
  simp

theorem Payload.beq_map {p : Payload E} (hp : ∀ e ∈ extras p, (h e.1 e.2 == e.2) = true)
    (hs : ∀ s ∈ p.schemas, (s == s) = true) : (map h p == p) = true := by
  cases p with
  | message m => exact Message.beq_map hp
  | reasoning r => exact Reasoning.beq_map hp
  | toolCall c => exact ToolCall.beq_map hp
  | toolCallOutput o => exact ToolCallOutput.beq_map hp
  | mcpListTools l => exact McpListTools.beq_self hs
  | mcpToolApprovalRequest q => exact beq_self_eq_true q
  | mcpToolApprovalResponse a => exact beq_self_eq_true a

theorem Block.beq_map {b : Block E} (hb : ∀ e ∈ extras b, (h e.1 e.2 == e.2) = true)
    (hs : ∀ s ∈ b.payload.toList.flatMap Payload.schemas, (s == s) = true) : (map h b == b) = true := by
  obtain ⟨type, payload⟩ := b
  have hpayload : (payload.map (map h) == payload) = true := by
    cases payload with
    | none => rfl
    | some held => exact Payload.beq_map (by simpa [extras] using hb) (by simpa using hs)
  change (type == type && payload.map (map h) == payload) = true
  rw [hpayload, beq_self_eq_true]
  rfl

theorem Response.beq_map {r : Response E} (hr : ∀ e ∈ extras r, (h e.1 e.2 == e.2) = true)
    (hs : ∀ s ∈ r.schemas, (s == s) = true) : (map h r == r) = true := by
  have hblocks : (r.blocks.map (map h) == r.blocks) = true :=
    beq_list fun b hb => Block.beq_map (fun e he => hr e (List.mem_flatMap.2 ⟨b, hb, he⟩))
      fun s hm => hs s (List.mem_flatMap.2 ⟨b, hb, hm⟩)
  change (r.id == r.id && r.finish == r.finish && r.usage == r.usage && r.blocks.map (map h) == r.blocks) = true
  rw [hblocks]
  simp

end

end TurnCodec
