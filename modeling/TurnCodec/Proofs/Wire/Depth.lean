import TurnCodec.Proofs.Limits
/-! How deep wire trees nest: as deep as the payloads of extension values and the input schemas of tools
take them, under a number of levels that every way to place these keeps. -/

namespace TurnCodec

open Bearing

namespace Tree

variable {n : Nat}

theorem depth_array_le {items : List Tree} : (array items).depth ≤ n + 1 ↔ ∀ t ∈ items, t.depth ≤ n := by
  rw [depth, Nat.add_le_add_iff_right, itemsDepth_le]

theorem depth_object_le {fields : List (String × Tree)} : (object fields).depth ≤ n + 1 ↔ ∀ f ∈ fields, f.2.depth ≤ n := by
  rw [depth, Nat.add_le_add_iff_right, fieldsDepth_le]

/-- A tree that may be absent nests to `n` at most. -/
def Shallow (n : Nat) (field : Option Tree) : Prop := ∀ t ∈ field, t.depth ≤ n

@[simp] theorem shallow_none : Shallow n none := by simp [Shallow]

@[simp] theorem shallow_some {t : Tree} : Shallow n (some t) ↔ t.depth ≤ n := by simp [Shallow]

theorem Shallow.mono {m : Nat} {field : Option Tree} (h : Shallow m field) (hle : m ≤ n) : Shallow n field :=
  fun t ht => (h t ht).trans hle

@[simp] theorem depth_text (s : String) : (text s).depth = 0 := rfl

@[simp] theorem depth_bool (b : Bool) : (bool b).depth = 0 := rfl

@[simp] theorem depth_ofInt64 (i : Int64) : (ofInt64 i).depth = 0 := rfl

@[simp] theorem shallow_text (s : Option String) : Shallow n (s.map .text) := by cases s <;> simp

@[simp] theorem shallow_index (i : Option Int32) : Shallow n (i.map .ofInt32) := by cases i <;> simp [ofInt32, depth]

theorem depth_record_le {fields : List (String × Option Tree)} :
    (record fields).depth ≤ n + 1 ↔ ∀ e ∈ fields, Shallow n e.2 := by
  rw [record_eq, depth_object_le]
  constructor
  · intro h e he t ht
    exact h (e.1, t) (mem_present.2 (by rwa [← Option.mem_def.1 ht]))
  · intro h f hf
    exact h _ (mem_present.1 hf) f.2 rfl

end Tree

section
variable {k : Nat}

/-- Every value nests to `k` at most. -/
def Bearing.Within {X : Type → Type} [Bearing X] (k : Nat) (x : X Tree) : Prop := ∀ e ∈ extras x, e.2.depth ≤ k

open Bearing (Within)

theorem Extra.shallow_layout {x : Extra Tree} (h : Within k x) : Tree.Shallow (k + 1) (Extra.layout x) := by
  unfold Extra.layout
  split
  · exact Tree.shallow_none
  · rw [Tree.shallow_some, Tree.depth_object_le]
    exact h

theorem Media.depth_layout {m : Media Tree} (h : Within k m) {type : PartType} {detail name : Option Tree}
    (hd : Tree.Shallow (k + 1) detail) (hn : Tree.Shallow (k + 1) name) : (m.layout type detail name).depth ≤ k + 2 := by
  have hextra : Tree.Shallow (k + 1) (Extra.layout m.extra) := Extra.shallow_layout h
  rw [Media.layout, Tree.depth_record_le]
  simp [hextra, hd, hn]

theorem ImageDetail.shallow_layout (d : ImageDetail) : Tree.Shallow k d.layout := by
  unfold ImageDetail.layout
  split <;> simp

theorem InputPart.depth_layout {p : InputPart Tree} (h : Within k p) : p.layout.depth ≤ k + 2 := by
  cases p with
  | text s =>
    rw [InputPart.layout, Tree.depth_object_le]
    simp
  | image m d => exact Media.depth_layout h (ImageDetail.shallow_layout d) Tree.shallow_none
  | audio m => exact Media.depth_layout h Tree.shallow_none Tree.shallow_none
  | video m => exact Media.depth_layout h Tree.shallow_none Tree.shallow_none
  | file m name => exact Media.depth_layout h Tree.shallow_none (Tree.shallow_text name)

theorem OutputPart.depth_layout {p : OutputPart Tree} (h : Within k p) : p.layout.depth ≤ k + 2 := by
  cases p with
  | text s x =>
    have hextra : Tree.Shallow (k + 1) (Extra.layout x) := Extra.shallow_layout h
    rw [OutputPart.layout, Tree.depth_record_le]
    simp [hextra]
  | image m => exact Media.depth_layout h Tree.shallow_none Tree.shallow_none
  | audio m => exact Media.depth_layout h Tree.shallow_none Tree.shallow_none
  | video m => exact Media.depth_layout h Tree.shallow_none Tree.shallow_none

theorem depth_layouts {X : Type → Type} [Bearing X] {layout : X Tree → Tree} {n : Nat}
    (hlayout : ∀ x, Within k x → (layout x).depth ≤ n) {xs : List (X Tree)} (h : ∀ e ∈ xs.flatMap extras, e.2.depth ≤ k) :
    (Tree.array (xs.map layout)).depth ≤ n + 1 := by
  rw [Tree.depth_array_le, List.forall_mem_map]
  exact fun x hx => hlayout x fun e he => h e (List.mem_flatMap_of_mem hx he)

theorem Message.depth_layout {m : Message Tree} (h : Within k m) : m.layout.depth ≤ k + 4 := by
  obtain ⟨index, role, content, extra⟩ := m
  obtain ⟨hcontent, hown⟩ : Within k content ∧ Within k extra := List.forall_mem_append.1 h
  have hextra : Tree.Shallow (k + 3) extra.layout := (Extra.shallow_layout hown).mono (by omega)
  rw [Message.layout, Tree.depth_record_le]
  cases content with
  | text s => simp [hextra]
  | input ps =>
    have hps := depth_layouts (fun _ => InputPart.depth_layout) hcontent
    simp [hextra, hps]
  | output ps =>
    have hps := depth_layouts (fun _ => OutputPart.depth_layout) hcontent
    simp [hextra, hps]

theorem SummaryFragment.depth_layout {f : SummaryFragment Tree} (h : Within k f) : f.layout.depth ≤ k + 2 := by
  have hextra : Tree.Shallow (k + 1) (Extra.layout f.extra) := Extra.shallow_layout h
  rw [SummaryFragment.layout, Tree.depth_record_le]
  simp [hextra]

theorem Reasoning.depth_layout {r : Reasoning Tree} (h : Within k r) : r.layout.depth ≤ k + 4 := by
  obtain ⟨hsummary, hown⟩ := List.forall_mem_append.1 h
  have hextra : Tree.Shallow (k + 3) r.extra.layout := (Extra.shallow_layout hown).mono (by omega)
  have hfragments := depth_layouts (fun _ => SummaryFragment.depth_layout) hsummary
  rw [Reasoning.layout, Tree.depth_record_le]
  simp [hextra, hfragments]

theorem ToolCall.depth_layout {c : ToolCall Tree} (h : Within k c) : c.layout.depth ≤ k + 2 := by
  have hextra : Tree.Shallow (k + 1) (Extra.layout c.extra) := Extra.shallow_layout h
  rw [ToolCall.layout, Tree.depth_record_le]
  simp [hextra]

theorem McpResult.depth_layout {r : McpResult Tree} (h : Within k r) : r.layout.depth ≤ k + 2 := by
  have hextra : Tree.Shallow (k + 1) (Extra.layout r.extra) := Extra.shallow_layout h
  rw [McpResult.layout, Tree.depth_record_le]
  simp [hextra]

theorem ToolCallOutput.depth_layout {o : ToolCallOutput Tree} (h : Within k o) : o.layout.depth ≤ k + 3 := by
  obtain ⟨index, type, callId, toolName, output⟩ := o
  rw [ToolCallOutput.layout, Tree.depth_record_le]
  cases output with
  | none => simp
  | some held =>
    cases held with
    | custom s =>
      have hcustom : (Tree.object [("content", .text s)]).depth ≤ k + 2 := by
        rw [Tree.depth_object_le]
        simp
      simp [hcustom]
    | mcp r =>
      have hresult : r.layout.depth ≤ k + 2 := McpResult.depth_layout (by simpa [Within, extras] using h)
      simp [hresult]

theorem ToolListing.depth_layout {l : ToolListing} {n : Nat} (h : Tree.Shallow n l.inputSchema) :
    l.layout.depth ≤ n + 1 := by
  rw [ToolListing.layout, Tree.depth_record_le]
  simp [h]

theorem McpListTools.depth_layout {l : McpListTools} {n : Nat} (h : ∀ s ∈ l.tools.filterMap (·.inputSchema), s.depth ≤ n) :
    l.layout.depth ≤ n + 3 := by
  have htools : (Tree.array (l.tools.map (·.layout))).depth ≤ n + 2 := by
    rw [Tree.depth_array_le, List.forall_mem_map]
    exact fun tool htool => ToolListing.depth_layout fun s hs => h s (List.mem_filterMap.2 ⟨tool, htool, hs⟩)
  rw [McpListTools.layout, Tree.depth_object_le]
  simp [htools]

theorem Payload.depth_layout {p : Payload Tree} (h : Within k p) (hs : ∀ s ∈ p.schemas, s.depth ≤ k + 1) :
    p.layout.depth ≤ k + 4 := by
  cases p with
  | message m => exact Message.depth_layout h
  | reasoning r => exact Reasoning.depth_layout h
  | toolCall c => exact (ToolCall.depth_layout h).trans (by omega)
  | toolCallOutput o => exact (ToolCallOutput.depth_layout h).trans (by omega)
  | mcpListTools l => exact McpListTools.depth_layout hs
  | mcpToolApprovalRequest q =>
    rw [layout, ApprovalRequest.layout, Tree.depth_object_le]
    simp
  | mcpToolApprovalResponse a =>
    rw [layout, ApprovalResponse.layout, Tree.depth_object_le]
    simp

theorem Block.depth_layout {b : Block Tree} (h : Within k b)
    (hs : ∀ s ∈ b.payload.toList.flatMap Payload.schemas, s.depth ≤ k + 1) : b.layout.depth ≤ k + 5 := by
  obtain ⟨type, payload⟩ := b
  cases payload with
  | none =>
    rw [layout, Tree.depth_object_le]
    simp
  | some held =>
    have hheld : held.layout.depth ≤ k + 4 :=
      Payload.depth_layout (by simpa [Within, extras] using h) (by simpa using hs)
    rw [layout, Tree.depth_object_le]
    simp [hheld]

theorem Finish.depth_layout (f : Finish) : f.layout.depth = 1 := rfl

theorem Usage.depth_layout (u : Usage) : u.layout.depth = 2 := rfl

/-- Above a value stand seven levels at most, and above a schema six. -/
theorem Response.depth_layout {r : Response Tree} (h : Within k r) (hs : ∀ s ∈ r.schemas, s.depth ≤ k + 1) :
    r.layout.depth ≤ k + 7 := by
  have hblocks : (Tree.array (r.blocks.map (·.layout))).depth ≤ k + 6 := by
    rw [Tree.depth_array_le, List.forall_mem_map]
    intro b hb
    exact Block.depth_layout (fun e he => h e (List.mem_flatMap_of_mem hb he))
      fun s hsb => hs s (List.mem_flatMap_of_mem hb hsb)
  have hfinish : Tree.Shallow (k + 6) (r.finish.map (·.layout)) := by cases r.finish <;> simp [Finish.depth_layout]
  have husage : Tree.Shallow (k + 6) (r.usage.map (·.layout)) := by cases r.usage <;> simp [Usage.depth_layout]
  rw [layout, Tree.depth_record_le]
  simp [hblocks, hfinish, husage]

end

variable {F : TypeFamily}

namespace Extension

/-- The payload of the record that a value is written as. -/
inductive Carries (R : Registry F) : Extension F → Tree → Prop
  | plain (t : Tree) : Carries R (plain t) t
  | typed {k : F.Key} {v : F.Value k} {b : Binding F k} {p : Tree} (hb : R.byType? k = some b)
      (hp : b.encode v = .ok p) : Carries R (typed k v) p

theorem depth_toWire {R : Registry F} {key : String} {x : Extension F} {w : Tree} {d : Nat}
    (h : toWire R key x = .ok w) (hx : ∀ p, x.Carries R p → p.depth ≤ d) : w.depth ≤ d + 1 := by
  have depth_record (id : String) (p : Tree) (hp : p.depth ≤ d) : (record id p).depth ≤ d + 1 := by
    rw [record, Tree.depth_object_le]
    simp [hp]
  cases x with
  | plain t =>
    obtain ⟨-, rfl⟩ := toWire_plain.1 h
    exact depth_record plainId t (hx t (.plain t))
  | typed k v =>
    obtain ⟨b, p, hb, hp, rfl⟩ := toWire_typed.1 h
    exact depth_record b.id p (hx p (.typed hb hp))

end Extension

namespace Response

/-- Every payload in a response nests to `d` at most, and every input schema two levels more. -/
structure Nests (R : Registry F) (d : Nat) (r : Response (Extension F)) : Prop where
  payloads : ∀ e ∈ extras r, ∀ p, e.2.Carries R p → p.depth ≤ d
  schemas : ∀ s ∈ r.schemas, s.depth ≤ d + 2

theorem depth_toWire {R : Registry F} {d : Nat} {r : Response (Extension F)} {w : Tree} (h : r.toWire R = .ok w)
    (hr : r.Nests R d) : w.depth ≤ d + 8 := by
  obtain ⟨s, hs, rfl⟩ := map_eq_ok.1 h
  obtain ⟨hok, rfl⟩ := (visit_eq_ok (X := Response)).1 hs
  refine depth_layout (k := d + 1) ?_ ?_
  · rw [Within, extras_map, List.forall_mem_map]
    intro e he
    obtain ⟨w, hw⟩ := hok e he
    rw [valueOf_eq hw]
    exact Extension.depth_toWire hw (hr.payloads e he)
  · rw [schemas_map]
    exact hr.schemas

end Response

/-- Arrays inside one another, to a depth. -/
def Tree.nested : Nat → Tree
  | 0 => .null
  | n + 1 => .array [nested n]

theorem Tree.depth_nested (n : Nat) : (nested n).depth = n := by
  induction n with
  | zero => rfl
  | succ n ih => simp [nested, depth, itemsDepth, ih]

/-- Metadata where it stands deepest. -/
def Response.deep {E : Type} (v : E) : Response E where
  id := "turn"
  blocks := [{ type := .message, payload := some (.message { content := .output [.text "" (Dict.empty.put "nested" v)] }) }]

theorem Response.depth_layout_deep (t : Tree) : (deep t).layout.depth = t.depth + 7 := by
  have hlayout : (deep t).layout = .object [
      ("blocks", .array [.object [
        ("message", .object [
          ("output_parts", .array [.object [
            ("content", .text ""), ("extra", .object [("nested", t)]), ("type", .text "text")]]),
          ("role", .text "user")]),
        ("type", .text "message")]]),
      ("id", .text "turn")] := rfl
  simp [hlayout, Tree.depth, Tree.itemsDepth, Tree.fieldsDepth]

namespace Response

variable {R : Registry F}

theorem extras_deep {E : Type} (v : E) : extras (deep v) = [("nested", v)] := rfl

theorem toWire_deep {t : Tree} (ht : t ≠ .discarded) :
    (deep (Extension.plain t)).toWire R = .ok (deep (Extension.record Extension.plainId t)).layout := by
  have hvalue : Extension.toWire R "nested" (.plain t) = .ok (Extension.record Extension.plainId t) :=
    Extension.toWire_plain.2 ⟨ht, rfl⟩
  have hmap : map (valueOf (Extension.toWire R)) (deep (Extension.plain t)) =
      deep (Extension.record Extension.plainId t) := by
    rw [← valueOf_eq hvalue]
    rfl
  refine map_eq_ok.2 ⟨_, (visit_eq_ok (X := Response)).2 ⟨?_, hmap⟩, rfl⟩
  rw [extras_deep, List.forall_mem_singleton]
  exact ⟨_, hvalue⟩

theorem nests_deep {t : Tree} : Nests R t.depth (deep (Extension.plain t)) where
  payloads := by
    rw [extras_deep, List.forall_mem_singleton]
    rintro p ⟨⟩
    exact le_rfl
  schemas := by simp [deep, schemas, Payload.schemas]

end Response

theorem Tree.nested_ne (n : Nat) : nested n ≠ discarded := by
  cases n <;> simp [nested]

namespace Codec

/-- Either call answers that a payload nests too deep. -/
def FindsTooDeep (D : Codec F) (b : List UInt8) : Prop :=
  (∃ e, D.inspect b = .error e ∧ e.report.code = "nesting_too_deep") ∨
    ∃ f, (D.decode b).value = .error f ∧ f.report.code = "nesting_too_deep"

theorem findsTooDeep_of_refusal {D : Codec F} {b : List UInt8} (h : D.refusal? b = some "nesting_too_deep") :
    D.FindsTooDeep b := by
  unfold refusal? at h
  split at h
  · exact .inl ⟨_, ‹_›, Option.some.inj h⟩
  · cases h

theorem read_ne_tooDeep {w : Tree} {body : List UInt8} (hwritten : Cbor.IsWritten w body)
    (hlength : body.length < 0xffffffffffffffff) {depth : Nat} (hdepth : w.depth ≤ depth) (limit : Nat) :
    Cbor.read depth body ≠ .error (.tooDeep limit) := by
  by_cases huntagged : w.Untagged
  · rw [(hwritten.isBody huntagged).read_eq hlength, Tree.depth_bare, if_pos hdepth]
    simp
  · rcases hwritten.read_tagged huntagged hlength depth with hmalformed | ⟨hdeep, -⟩
    · simp [hmalformed]
    · omega

theorem not_findsTooDeep {D : Codec F} {w : Tree} {body : List UInt8} (hwritten : Cbor.IsWritten w body)
    (hdepth : w.depth ≤ D.options.maxNestingDepth.toNat) : ¬ D.FindsTooDeep (Envelope.pack body) := by
  have hseen : ∀ e, D.inspect (Envelope.pack body) = .error e → e.report.code ≠ "nesting_too_deep" := by
    intro e he
    rw [inspect, Envelope.unpack_pack] at he
    split at he
    · cases he
      simp [Envelope.Fault.report]
    have hlength := Envelope.length_lt (Nat.le_of_not_lt ‹_›)
    split at he
    · rename_i why hwhy
      cases he
      cases why with
      | tooDeep limit => exact absurd hwhy (read_ne_tooDeep hwritten hlength hdepth limit)
      | _ => simp [Envelope.Fault.report]
    · cases he
    · cases he
      simp [Envelope.Fault.report]
  rintro (⟨e, he, hcode⟩ | ⟨f, hf, hcode⟩)
  · exact hseen e he hcode
  · obtain ⟨e, he, rfl⟩ := decode_guarded hf (by simp [hcode, Envelope.guardCodes])
    exact hseen e he hcode

end Codec

theorem Response.greeting_nests : greeting.Nests .truth 1 where
  payloads := by
    rw [show extras greeting = [("seen", .typed () true), ("trace", .plain (.array [.null, .int 0]))] from rfl]
    simp only [List.forall_mem_cons, List.not_mem_nil, false_implies, implies_true, and_true]
    constructor
    · intro p hp
      cases hp with
      | typed hb hp =>
        obtain rfl := Option.some.inj hb
        obtain rfl := Except.ok.inj hp
        decide
    · intro p hp
      cases hp
      decide
  schemas := by simp [schemas, greeting, Payload.schemas]

/-- An array whose item is discarded, before another array. -/
def Tree.gapped : Tree := .array [.array [.discarded], .array []]

end TurnCodec
