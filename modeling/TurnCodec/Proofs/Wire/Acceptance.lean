import TurnCodec.Proofs.Wire.Extension
import TurnCodec.Proofs.Wire.Grammar
import TurnCodec.Wire.Response
/-! Readers of wire trees accept what the grammar describes, and nothing else. A reader that
goes from field to field accepts an object when each field is accepted, so there is one law
for each reader of a field and one for each shape. -/

namespace TurnCodec

/-- There is a result. -/
def Succeeds {ε α : Type} (x : Except ε α) : Prop := ∃ a, x = .ok a

section
variable {ε α β : Type} {x : Except ε α}

@[simp] theorem succeeds_ok (a : α) : Succeeds (.ok a : Except ε α) := ⟨a, rfl⟩

@[simp] theorem not_succeeds_error (e : ε) : ¬ Succeeds (.error e : Except ε α) := nofun

@[simp] theorem succeeds_map {f : α → β} : Succeeds (f <$> x) ↔ Succeeds x := by
  cases x <;> simp [Succeeds]

@[simp] theorem succeeds_bind {f : α → Except ε β} : Succeeds (x >>= f) ↔ ∃ a, x = .ok a ∧ Succeeds (f a) := by
  cases x <;> simp [Succeeds]

/-- Of a result that is not used, only that there is one counts. -/
@[simp]
theorem exists_ok_and {p : Prop} : (∃ a, x = .ok a ∧ p) ↔ Succeeds x ∧ p := exists_and_right

@[simp] theorem exists_ok : (∃ a, x = .ok a) ↔ Succeeds x := Iff.rfl

@[simp] theorem succeeds_mapM {f : α → Except ε β} {xs : List α} : Succeeds (xs.mapM f) ↔ ∀ a ∈ xs, Succeeds (f a) := by
  induction xs with
  | nil => simp [succeeds_ok]
  | cons a xs ih =>
    rw [List.mapM_cons, List.forall_mem_cons, ← ih]
    simp only [succeeds_bind, exists_ok_and, exists_ok, pure_eq_ok, succeeds_ok, and_true]

end

namespace Tree

@[simp] theorem exists_fieldsOf {w : Tree} {what : String} {shape : Fields → Prop} :
    (∃ fs, w.fieldsOf what = .ok fs ∧ shape fs) ↔ IsObject shape w := by
  simp only [fieldsOf_eq_ok, IsObject]

@[simp] theorem exists_itemsOf {w : Tree} {what : String} {item : Tree → Prop} :
    (∃ items, w.itemsOf what = .ok items ∧ ∀ t ∈ items, item t) ↔ IsArray item w := by
  simp only [itemsOf_eq_ok, IsArray]

theorem isObject_congr {w : Tree} {shape shape' : Fields → Prop} (h : ∀ fs, shape fs ↔ shape' fs) :
    IsObject shape w ↔ IsObject shape' w := exists_congr fun fs => and_congr_right fun _ => h fs

theorem isCount_iff {w : Tree} : IsCount w ↔ ∃ n, w = .ofInt64 n := by
  constructor
  · rintro ⟨i, rfl, -, hi⟩
    exact ⟨_, congrArg Tree.int (Integer.eq_ofInt64 (if_pos hi))⟩
  · rintro ⟨n, rfl⟩
    exact ⟨_, rfl, n.le_toInt, n.toInt_lt⟩

theorem isIndex_iff {w : Tree} : IsIndex w ↔ ∃ n, w = .ofInt32 n := by
  constructor
  · rintro ⟨i, rfl, hi⟩
    exact ⟨_, congrArg Tree.int (Integer.eq_ofInt32 (if_pos hi))⟩
  · rintro ⟨n, rfl⟩
    exact ⟨_, rfl, n.le_toInt, n.toInt_lt⟩

end Tree

namespace Fields

open TurnCodec.Tree

variable {fs : Fields} {key : String} {α : Type} {kind : Tree → Prop}

theorem allows_none (h : fs.lookup key = none) : fs.Allows key kind := by
  intro w hw
  rw [h] at hw
  cases hw

theorem allows_some {w : Tree} (h : fs.lookup key = some w) : fs.Allows key kind ↔ kind w := by
  simp [Allows, h]

theorem requires_some {w : Tree} (h : fs.lookup key = some w) : fs.Requires key kind ↔ kind w := by
  simp [Requires, h]

theorem requires_eq {t : Tree} : fs.Requires key (· = t) ↔ fs.lookup key = some t := exists_eq_right

/-- A reader that gives what a field was written from. -/
theorem succeeds_required {x : Except Malformed α} {f : α → Tree} (h : ∀ a, x = .ok a ↔ fs.lookup key = some (f a)) :
    Succeeds x ↔ fs.Requires key fun w => ∃ a, w = f a := by
  simp only [Succeeds, h, Requires]
  constructor
  · rintro ⟨a, ha⟩
    exact ⟨_, ha, a, rfl⟩
  · rintro ⟨_, ha, a, rfl⟩
    exact ⟨a, ha⟩

theorem succeeds_optional {x : Except Malformed (Option α)} {f : α → Tree}
    (h : ∀ o, x = .ok o ↔ fs.lookup key = o.map f) : Succeeds x ↔ fs.Allows key fun w => ∃ a, w = f a := by
  simp only [Succeeds, h]
  cases hw : fs.lookup key with
  | none => exact iff_of_true ⟨none, rfl⟩ (allows_none hw)
  | some w =>
    rw [allows_some hw]
    constructor
    · rintro ⟨o, ho⟩
      obtain ⟨a, -, ha⟩ := Option.map_eq_some_iff.1 ho.symm
      exact ⟨a, ha.symm⟩
    · rintro ⟨a, rfl⟩
      exact ⟨some a, rfl⟩

@[simp] theorem succeeds_text : Succeeds (fs.text key) ↔ fs.Requires key IsText := succeeds_required fun _ => text_eq_ok

@[simp] theorem succeeds_text? : Succeeds (fs.text? key) ↔ fs.Allows key IsText := succeeds_optional fun _ => text?_eq_ok

@[simp] theorem succeeds_bool : Succeeds (fs.bool key) ↔ fs.Requires key IsBool := succeeds_required fun _ => bool_eq_ok

@[simp] theorem succeeds_tag [Named α] {what : String} : Succeeds (fs.tag α key what) ↔ fs.Requires key (IsTag α) :=
  succeeds_required fun _ => tag_eq_ok

@[simp] theorem succeeds_count : Succeeds (fs.count key) ↔ fs.Requires key IsCount := by
  rw [succeeds_required (f := .ofInt64) fun _ => count_eq_ok]
  simp only [Requires, isCount_iff]

@[simp] theorem succeeds_index? : Succeeds (fs.index? key) ↔ fs.Allows key IsIndex := by
  rw [succeeds_optional (f := .ofInt32) fun _ => index?_eq_ok]
  simp only [Allows, isIndex_iff]

@[simp] theorem exists_object {shape : Fields → Prop} {p : Prop} :
    (∃ gs, fs.object key = .ok gs ∧ shape gs ∧ p) ↔ fs.Requires key (IsObject shape) ∧ p := by
  simp only [object_eq_ok, Requires, IsObject]
  constructor
  · rintro ⟨gs, h, hshape, hp⟩
    exact ⟨⟨_, h, gs, rfl, hshape⟩, hp⟩
  · rintro ⟨⟨_, h, gs, rfl, hshape⟩, hp⟩
    exact ⟨gs, h, hshape, hp⟩

@[simp] theorem exists_array {item : Tree → Prop} :
    (∃ items, fs.array key = .ok items ∧ ∀ t ∈ items, item t) ↔ fs.Requires key (IsArray item) := by
  simp only [array_eq_ok, Requires, IsArray]
  constructor
  · rintro ⟨items, h, hitems⟩
    exact ⟨_, h, items, rfl, hitems⟩
  · rintro ⟨_, h, items, rfl, hitems⟩
    exact ⟨items, h, hitems⟩

@[simp] theorem exists_array_and {item : Tree → Prop} {p : Prop} :
    (∃ items, fs.array key = .ok items ∧ (∀ t ∈ items, item t) ∧ p) ↔ fs.Requires key (IsArray item) ∧ p := by
  simp only [← exists_array, ← and_assoc, exists_and_right]

theorem succeeds_has {x : Except Malformed α} {a : α} (h : Succeeds x ↔ fs.Requires key kind) :
    Succeeds (if fs.has key then x else .ok a) ↔ fs.Allows key kind := by
  unfold has
  cases hw : fs.lookup key with
  | none => exact iff_of_true (succeeds_ok a) (allows_none hw)
  | some w =>
    rw [requires_some hw] at h
    rw [allows_some hw, ← h]
    rfl

theorem succeeds_lookup {f : Tree → Except Malformed α} (h : ∀ w, Succeeds (f w) ↔ kind w) :
    Succeeds ((fs.lookup key).mapM f) ↔ fs.Allows key kind := by
  cases hw : fs.lookup key with
  | none => exact iff_of_true (succeeds_ok _) (allows_none hw)
  | some w =>
    rw [allows_some hw, ← h]
    exact succeeds_map

end Fields

open TurnCodec.Tree Fields

theorem Finish.succeeds_ofWire {w : Tree} : Succeeds (ofWire w) ↔ IsObject Shape w := by
  rw [isObject_congr shape_iff]
  simp [ofWire]

theorem Usage.succeeds_ofWire {w : Tree} : Succeeds (ofWire w) ↔ IsObject Shape w := by
  rw [isObject_congr shape_iff]
  simp [ofWire]

theorem ToolListing.succeeds_ofWire {w : Tree} : Succeeds (ofWire w) ↔ IsObject Shape w := by
  rw [isObject_congr shape_iff]
  simp [ofWire]

theorem McpListTools.succeeds_ofWire {w : Tree} : Succeeds (ofWire w) ↔ IsObject Shape w := by
  rw [isObject_congr shape_iff]
  simp [ofWire, ToolListing.succeeds_ofWire]

theorem ApprovalRequest.succeeds_ofWire {w : Tree} : Succeeds (ofWire w) ↔ IsObject Shape w := by
  rw [isObject_congr shape_iff]
  simp [ofWire]

theorem ApprovalResponse.succeeds_ofWire {w : Tree} : Succeeds (ofWire w) ↔ IsObject Shape w := by
  rw [isObject_congr shape_iff]
  simp [ofWire]

theorem ImageDetail.succeeds_ofWire {fs : Fields} :
    Succeeds (ImageDetail.ofWire fs) ↔ fs.Allows "detail" (IsTag ImageDetail) := succeeds_has succeeds_tag

section
variable {E : Type} {read : String → Tree → Except Malformed E} {record : Tree → Prop}
  (hread : ∀ key w, Succeeds (read key w) ↔ record w)
include hread

theorem Extra.succeeds_ofWire {fs : Fields} : Succeeds (ofWire read fs) ↔ fs.Allows "extra" (IsExtra record) := by
  unfold ofWire
  cases hw : fs.lookup "extra" with
  | none => exact iff_of_true (succeeds_ok _) (allows_none hw)
  | some w =>
    rw [allows_some hw, IsExtra]
    simp [hread]

theorem Media.succeeds_ofWire {fs : Fields} : Succeeds (ofWire read fs) ↔ Shape record fs := by
  simp [ofWire, shape_iff, Extra.succeeds_ofWire hread]

theorem SummaryFragment.succeeds_ofWire {w : Tree} : Succeeds (ofWire read w) ↔ IsObject (Shape record) w := by
  rw [isObject_congr (shape_iff record)]
  simp [ofWire, Extra.succeeds_ofWire hread]

theorem Reasoning.succeeds_ofWire {w : Tree} : Succeeds (ofWire read w) ↔ IsObject (Shape record) w := by
  rw [isObject_congr (shape_iff record)]
  simp [ofWire, SummaryFragment.succeeds_ofWire hread, Extra.succeeds_ofWire hread]

theorem ToolCall.succeeds_ofWire {w : Tree} : Succeeds (ofWire read w) ↔ IsObject (Shape record) w := by
  rw [isObject_congr (shape_iff record)]
  simp [ofWire, Extra.succeeds_ofWire hread]

theorem McpResult.succeeds_ofWire {w : Tree} : Succeeds (ofWire read w) ↔ IsObject (Shape record) w := by
  rw [isObject_congr (shape_iff record)]
  simp [ofWire, Extra.succeeds_ofWire hread]

theorem InputPart.succeeds_ofWire {w : Tree} : Succeeds (ofWire read w) ↔ IsObject (Shape record) w := by
  simp only [ofWire, succeeds_bind, tag_eq_ok, ← requires_eq, exists_fieldsOf]
  refine isObject_congr fun fs => exists_congr fun type => and_congr_right fun _ => ?_
  cases type with
  | text => simp
  | image => simp [Media.succeeds_ofWire hread, ImageDetail.succeeds_ofWire]
  | audio => simp [Media.succeeds_ofWire hread]
  | video => simp [Media.succeeds_ofWire hread]
  | file => simp [Media.succeeds_ofWire hread]

theorem OutputPart.succeeds_ofWire {w : Tree} : Succeeds (ofWire read w) ↔ IsObject (Shape record) w := by
  simp only [ofWire, succeeds_bind, tag_eq_ok, ← requires_eq, exists_fieldsOf]
  refine isObject_congr fun fs => exists_congr fun type => and_congr_right fun _ => ?_
  cases type with
  | text => simp [Extra.succeeds_ofWire hread]
  | image => simp [Media.succeeds_ofWire hread]
  | audio => simp [Media.succeeds_ofWire hread]
  | video => simp [Media.succeeds_ofWire hread]
  | file => simp

/-- Of three fields that exclude each other, the one that is there decides. -/
theorem Message.succeeds_contentOfWire {fs : Fields} : Succeeds (contentOfWire read fs) ↔
    fs.carried ["input_text", "input_parts", "output_parts"] = 1 ∧ fs.Allows "input_text" IsText ∧
      fs.Allows "input_parts" (IsArray (IsObject (InputPart.Shape record))) ∧
      fs.Allows "output_parts" (IsArray (IsObject (OutputPart.Shape record))) := by
  unfold contentOfWire
  cases htext : fs.lookup "input_text" <;> cases hinput : fs.lookup "input_parts" <;>
    cases houtput : fs.lookup "output_parts"
  all_goals simp [carried, has, Allows, Requires, htext, hinput, houtput, InputPart.succeeds_ofWire hread,
    OutputPart.succeeds_ofWire hread]

theorem Message.succeeds_ofWire {w : Tree} : Succeeds (ofWire read w) ↔ IsObject (Shape record) w := by
  rw [isObject_congr (shape_iff record)]
  simp [ofWire, Message.succeeds_contentOfWire hread, Extra.succeeds_ofWire hread, and_assoc]

theorem ToolCallOutput.succeeds_outputOfWire {callId : String} {fs : Fields} :
    Succeeds (outputOfWire read callId fs) ↔ fs.carried ["custom", "mcp"] ≤ 1 ∧
      fs.Allows "custom" (IsObject fun custom => custom.Requires "content" IsText) ∧
      fs.Allows "mcp" (IsObject (McpResult.Shape record)) := by
  unfold outputOfWire
  cases hcustom : fs.lookup "custom" <;> cases hmcp : fs.lookup "mcp"
  all_goals simp [carried, has, Allows, hcustom, hmcp, McpResult.succeeds_ofWire hread]

theorem ToolCallOutput.succeeds_ofWire {w : Tree} : Succeeds (ofWire read w) ↔ IsObject (Shape record) w := by
  rw [isObject_congr (shape_iff record)]
  simp [ofWire, ToolCallOutput.succeeds_outputOfWire hread]

theorem Payload.succeeds_ofWire {held : BlockType} {w : Tree} :
    Succeeds (ofWire read held w) ↔ IsObject (Shape record held) w := by
  cases held with
  | message => exact succeeds_map.trans (Message.succeeds_ofWire hread)
  | reasoning => exact succeeds_map.trans (Reasoning.succeeds_ofWire hread)
  | toolCall => exact succeeds_map.trans (ToolCall.succeeds_ofWire hread)
  | toolCallOutput => exact succeeds_map.trans (ToolCallOutput.succeeds_ofWire hread)
  | mcpListTools => exact succeeds_map.trans McpListTools.succeeds_ofWire
  | mcpToolApprovalRequest => exact succeeds_map.trans ApprovalRequest.succeeds_ofWire
  | mcpToolApprovalResponse => exact succeeds_map.trans ApprovalResponse.succeeds_ofWire

omit hread in
theorem Block.carried_eq (fs : Fields) : fs.carried ["message", "reasoning", "tool_call", "tool_call_output",
    "mcp_list_tools", "mcp_tool_approval_request", "mcp_tool_approval_response"] = (payloadFields fs).length := by
  have hkeys : (Named.all : List BlockType).map BlockType.name = ["message", "reasoning", "tool_call",
      "tool_call_output", "mcp_list_tools", "mcp_tool_approval_request", "mcp_tool_approval_response"] := rfl
  rw [carried, ← hkeys, List.countP_map, payloadFields, List.length_filterMap_eq_countP]
  simp only [Function.comp_def, has, Option.isSome_map]

omit hread in
theorem Block.forall_allows {fs : Fields} {kind : BlockType → Tree → Prop} :
    (∀ held : BlockType, fs.Allows held.name (kind held)) ↔ ∀ e ∈ payloadFields fs, kind e.1 e.2 :=
  ⟨fun h e he => h e.1 e.2 (mem_payloadFields.1 he), fun h held w hw => h (held, w) (mem_payloadFields.2 hw)⟩

theorem Block.succeeds_ofWire {w : Tree} : Succeeds (ofWire read w) ↔ IsObject (Shape record) w := by
  simp only [ofWire, succeeds_bind, exists_fieldsOf]
  refine isObject_congr fun fs => ?_
  rw [shape_iff, carried_eq, forall_allows]
  rcases payloadFields fs with _ | ⟨⟨held, w⟩, _ | ⟨e, more⟩⟩
  · simp
  · simp [Payload.succeeds_ofWire hread]
  · simp

theorem Response.succeeds_readWire {w : Tree} : Succeeds (readWire read w) ↔ IsObject (Shape record) w := by
  rw [isObject_congr (shape_iff record)]
  simp [readWire, succeeds_lookup fun _ => Finish.succeeds_ofWire, succeeds_lookup fun _ => Usage.succeeds_ofWire,
    Block.succeeds_ofWire hread]

end

variable {F : TypeFamily} {R : Registry F}

theorem Extension.succeeds_resolve {key id : String} {p : Tree} : Succeeds (resolve R key id p) ↔
    id = "json" ∨ ∃ k b, R.byId? id = some ⟨k, b⟩ ∧ ∃ v, b.decode p = .ok v := by
  constructor
  · rintro ⟨x, hx⟩
    rcases resolve_cases hx with ⟨hid, -⟩ | ⟨k, b, v, hb, hv, -⟩
    · exact .inl hid
    · exact .inr ⟨k, b, hb, v, hv⟩
  · intro h
    by_cases hid : id = plainId
    · rw [hid, resolve_plain]
      exact succeeds_ok _
    · obtain ⟨k, b, hb, v, hv⟩ := h.resolve_left hid
      exact ⟨_, resolve_typed hid hb hv⟩

theorem Extension.succeeds_ofWire {key : String} {w : Tree} : Succeeds (ofWire R key w) ↔ IsRecord R w := by
  simp only [ofWire, succeeds_bind, text_eq_ok, required_eq_ok, succeeds_resolve, exists_fieldsOf, IsRecord]

/-- A tree is read as a response exactly when the grammar has it as a wire tree. -/
theorem Response.exists_ofWire (R : Registry F) (w : Tree) : (∃ r, ofWire R w = .ok r) ↔ Grammatical R w := by
  have hread (key : String) (w : Tree) : Succeeds (Extension.ofWire R key w) ↔ Extension.IsRecord R w :=
    Extension.succeeds_ofWire
  exact succeeds_readWire hread

end TurnCodec
