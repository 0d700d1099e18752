import TurnCodec.Proofs.Wire.Prune
import TurnCodec.Proofs.Codec
/-! What readers see of a tree. They go by the fields under the keys that they look up, so a tree
is read as its visible part is read, and trees with one visible part are read alike: whatever
other fields they have, and whether or not the reading succeeds. -/

namespace TurnCodec

open TurnCodec.Tree (Rule change mapItems pruneField)

namespace Tree

variable {rules : List (String × Rule)} {key : String} {f : Tree → Tree}

/-- Under a key whose fields are all kept, a pruned object has what it had, as it was changed. -/
theorem lookup_change (h : rules.lookup key = some (change f)) (fs : Fields) :
    (fs.filterMap (pruneField rules)).lookup key = (fs.lookup key).map f := by
  induction fs with
  | nil => rfl
  | cons e fs ih =>
    obtain ⟨k, t⟩ := e
    rw [lookup_entry, List.filterMap_cons]
    by_cases hk : key = k
    · subst hk
      rw [pruneField, h]
      simp [change]
    · rw [if_neg hk, ← ih]
      cases hf : pruneField rules (k, t) with
      | none => rfl
      | some g =>
        obtain ⟨_, _, -, -, rfl⟩ := pruneField_eq_some.1 hf
        simp only [lookup_entry, if_neg hk]

theorem lookup_keep (h : rules.lookup key = some some) (fs : Fields) :
    (fs.filterMap (pruneField rules)).lookup key = fs.lookup key := by
  rw [lookup_change (f := id) h, Option.map_id, id]

/-- Fields under any other keys make no difference. -/
theorem prune_filter {p : String × Tree → Bool} (h : ∀ f, p f = false → rules.lookup f.1 = none) (fs : Fields) :
    prune rules (.object (fs.filter p)) = prune rules (.object fs) := by
  rw [prune, prune, List.filterMap_filter]
  refine congrArg (fun g => object (fs.filterMap g)) (funext fun f => ?_)
  by_cases hp : p f = true
  · rw [if_pos hp]
  · rw [if_neg hp, pruneField, h f (Bool.eq_false_iff.2 hp)]
    rfl

theorem itemsOf_mapItems (f : Tree → Tree) (what : String) (w : Tree) :
    (mapItems f w).itemsOf what = List.map f <$> w.itemsOf what := by
  cases w <;> rfl

/-- A pruned object is read as it was before if its fields are. -/
theorem fieldsOf_prune {α : Type} {what : String} {read : Fields → Except Malformed α}
    (h : ∀ fs : Fields, read (fs.filterMap (pruneField rules)) = read fs) (w : Tree) :
    ((prune rules w).fieldsOf what >>= read) = (w.fieldsOf what >>= read) := by
  cases w with
  | object fs => exact h fs
  | _ => rfl

end Tree

namespace Fields

variable {rules : List (String × Rule)} {key : String}

section
variable (h : rules.lookup key = some some) (fs : Fields)
include h

theorem has_keep : has (fs.filterMap (pruneField rules)) key = fs.has key := by
  rw [has, has, Tree.lookup_keep h]

theorem required_keep : required (fs.filterMap (pruneField rules)) key = fs.required key := by
  rw [required, required, Tree.lookup_keep h]

theorem text_keep : text (fs.filterMap (pruneField rules)) key = fs.text key := by
  rw [text, text, required_keep h]

theorem text?_keep : text? (fs.filterMap (pruneField rules)) key = fs.text? key := by
  rw [text?, text?, has_keep h, text_keep h]

theorem bool_keep : bool (fs.filterMap (pruneField rules)) key = fs.bool key := by
  rw [bool, bool, required_keep h]

theorem integer_keep : integer (fs.filterMap (pruneField rules)) key = fs.integer key := by
  rw [integer, integer, required_keep h]

theorem count_keep : count (fs.filterMap (pruneField rules)) key = fs.count key := by
  rw [count, count, integer_keep h]

theorem index?_keep : index? (fs.filterMap (pruneField rules)) key = fs.index? key := by
  rw [index?, index?, has_keep h, integer_keep h]

theorem tag_keep {α : Type} [Named α] {what : String} :
    tag α (fs.filterMap (pruneField rules)) key what = fs.tag α key what := by
  rw [tag, tag, text_keep h]

end

theorem array_change {f : Tree → Tree} (h : rules.lookup key = some (change (mapItems f))) (fs : Fields) :
    array (fs.filterMap (pruneField rules)) key = List.map f <$> fs.array key := by
  rw [array, array, required, required, Tree.lookup_change h]
  rcases fs.lookup key with _ | w
  · rfl
  · exact Tree.itemsOf_mapItems f key w

theorem object_change {inner : List (String × Rule)} (h : rules.lookup key = some (change (Tree.prune inner)))
    (fs : Fields) :
    object (fs.filterMap (pruneField rules)) key = List.filterMap (pruneField inner) <$> fs.object key := by
  rw [object, object, required, required, Tree.lookup_change h]
  rcases fs.lookup key with _ | w
  · rfl
  · cases w <;> rfl

end Fields

/-- Of a record, its type id and its payload. -/
def Extension.visible : Tree → Tree := Tree.prune [("p", some), ("t", some)]

/-- Records under all keys are looked at. -/
def Extra.visible : Rule := change fun
  | .object records => .object (records.map fun r => (r.1, Extension.visible r.2))
  | w => w

theorem mapM_map_of_eq {ε α β : Type} {read : α → Except ε β} {f : α → α} (h : ∀ a, read (f a) = read a)
    (as : List α) : (as.map f).mapM read = as.mapM read := by
  rw [List.mapM_map]
  exact congrArg as.mapM (funext h)

theorem Finish.ofWire_prune (w : Tree) : ofWire (prune w) = ofWire w := by
  refine Tree.fieldsOf_prune (fun fs => ?_) w
  rw [Fields.tag_keep rfl, Fields.text_keep rfl]

theorem Usage.ofWire_prune (w : Tree) : ofWire (prune w) = ofWire w := by
  refine Tree.fieldsOf_prune (fun fs => ?_) w
  rw [Fields.count_keep rfl, Fields.object_change rfl, Fields.count_keep rfl, Fields.object_change rfl,
    Fields.count_keep rfl]
  have cached := @Fields.count_keep [("cached_tokens", some)] "cached_tokens" rfl
  have reasoning := @Fields.count_keep [("reasoning_tokens", some)] "reasoning_tokens" rfl
  simp only [bind_map_left, cached, reasoning]

theorem ToolListing.ofWire_prune (w : Tree) : ofWire (prune w) = ofWire w := by
  refine Tree.fieldsOf_prune (fun fs => ?_) w
  rw [Fields.text_keep rfl, Fields.text_keep rfl, Tree.lookup_keep rfl]

theorem McpListTools.ofWire_prune (w : Tree) : ofWire (prune w) = ofWire w := by
  refine Tree.fieldsOf_prune (fun fs => ?_) w
  rw [Fields.text_keep rfl, Fields.array_change rfl, Fields.text_keep rfl]
  simp only [bind_map_left, mapM_map_of_eq ToolListing.ofWire_prune]

theorem ApprovalRequest.ofWire_prune (w : Tree) : ofWire (prune w) = ofWire w := by
  refine Tree.fieldsOf_prune (fun fs => ?_) w
  rw [Fields.text_keep rfl, Fields.text_keep rfl, Fields.text_keep rfl]

theorem ApprovalResponse.ofWire_prune (w : Tree) : ofWire (prune w) = ofWire w := by
  refine Tree.fieldsOf_prune (fun fs => ?_) w
  rw [Fields.text_keep rfl, Fields.bool_keep rfl, Fields.text_keep rfl]

theorem PartType.ofWire?_tag {fs : Fields} {what : String} {type : PartType}
    (h : fs.tag PartType "type" what = .ok type) : ofWire? (.object fs) = some type := by
  simp [ofWire?, Tree.textAt?, Fields.tag_eq_ok.1 h, Named.parse?_name]

theorem ImageDetail.ofWire_keep {rules : List (String × Rule)} (h : rules.lookup "detail" = some some) (fs : Fields) :
    ofWire (fs.filterMap (pruneField rules)) = ofWire fs := by
  rw [ofWire, ofWire, Fields.has_keep h, Fields.tag_keep h]

section
variable {E : Type} {read : String → Tree → Except Malformed E}
  (h : ∀ key w, read key (Extension.visible w) = read key w)
include h

theorem Extra.ofWire_prune {rules : List (String × Rule)} (hr : rules.lookup "extra" = some visible) (fs : Fields) :
    ofWire read (fs.filterMap (pruneField rules)) = ofWire read fs := by
  rw [ofWire, ofWire, Tree.lookup_change hr]
  rcases fs.lookup "extra" with _ | w
  · rfl
  cases w with
  | object records => simp only [Option.map_some, Tree.fieldsOf, ok_bind, List.mapM_map, Function.comp_def, h]
  | _ => rfl

theorem Media.ofWire_prune (detail name : Rule) (fs : Fields) :
    ofWire read (fs.filterMap (pruneField (rules Extra.visible detail name))) = ofWire read fs := by
  rw [ofWire, ofWire, Fields.text?_keep rfl, Fields.text?_keep rfl, Fields.text_keep rfl, Extra.ofWire_prune h rfl]

theorem SummaryFragment.ofWire_prune (w : Tree) : ofWire read (prune Extra.visible w) = ofWire read w := by
  refine Tree.fieldsOf_prune (fun fs => ?_) w
  rw [Fields.text_keep rfl, Extra.ofWire_prune h rfl]

theorem Reasoning.ofWire_prune (w : Tree) : ofWire read (prune Extra.visible w) = ofWire read w := by
  refine Tree.fieldsOf_prune (fun fs => ?_) w
  rw [Fields.index?_keep rfl, Fields.index?_keep rfl, Fields.array_change rfl, Fields.text_keep rfl,
    Extra.ofWire_prune h rfl]
  simp only [bind_map_left, mapM_map_of_eq (SummaryFragment.ofWire_prune h)]

theorem ToolCall.ofWire_prune (w : Tree) : ofWire read (prune Extra.visible w) = ofWire read w := by
  refine Tree.fieldsOf_prune (fun fs => ?_) w
  rw [Fields.index?_keep rfl, Fields.tag_keep rfl, Fields.text_keep rfl, Fields.text_keep rfl, Fields.text_keep rfl,
    Extra.ofWire_prune h rfl]

theorem McpResult.ofWire_prune (w : Tree) : ofWire read (prune Extra.visible w) = ofWire read w := by
  refine Tree.fieldsOf_prune (fun fs => ?_) w
  rw [Fields.text_keep rfl, Fields.text_keep rfl, Fields.tag_keep rfl, Fields.text_keep rfl, Extra.ofWire_prune h rfl]

theorem InputPart.ofWire_prune (w : Tree) : ofWire read (prune Extra.visible some w) = ofWire read w := by
  cases w with
  | object fs =>
    have keep : (rules Extra.visible some (PartType.ofWire? (.object fs))).lookup "type" = some some := by
      rcases PartType.ofWire? (.object fs) with _ | _ | _ | _ | _ | _ <;> rfl
    rw [ofWire, ofWire, prune, Tree.prune, Tree.fieldsOf, Tree.fieldsOf, ok_bind, ok_bind, Fields.tag_keep keep]
    cases htype : Fields.tag PartType fs "type" "message part type" with
    | error m => rfl
    | ok type =>
      rw [PartType.ofWire?_tag htype]
      cases type with
      | text => exact congrArg (text <$> ·) (Fields.text_keep rfl fs)
      | image =>
        rw [rules, ok_bind, ok_bind, Media.ofWire_prune h, ImageDetail.ofWire_keep rfl]
      | audio => exact congrArg (audio <$> ·) (Media.ofWire_prune h _ _ fs)
      | video => exact congrArg (video <$> ·) (Media.ofWire_prune h _ _ fs)
      | file =>
        rw [rules, ok_bind, ok_bind, Media.ofWire_prune h, Fields.text?_keep rfl]
  | _ => rfl

theorem OutputPart.ofWire_prune (w : Tree) : ofWire read (prune Extra.visible w) = ofWire read w := by
  cases w with
  | object fs =>
    have keep : (rules Extra.visible (PartType.ofWire? (.object fs))).lookup "type" = some some := by
      rcases PartType.ofWire? (.object fs) with _ | _ | _ | _ | _ | _ <;> rfl
    rw [ofWire, ofWire, prune, Tree.prune, Tree.fieldsOf, Tree.fieldsOf, ok_bind, ok_bind, Fields.tag_keep keep]
    cases htype : Fields.tag PartType fs "type" "message part type" with
    | error m => rfl
    | ok type =>
      rw [PartType.ofWire?_tag htype]
      cases type with
      | text => rw [rules, ok_bind, ok_bind, Fields.text_keep rfl, Extra.ofWire_prune h rfl]
      | image => exact congrArg (image <$> ·) (Media.ofWire_prune h _ _ fs)
      | audio => exact congrArg (audio <$> ·) (Media.ofWire_prune h _ _ fs)
      | video => exact congrArg (video <$> ·) (Media.ofWire_prune h _ _ fs)
      | file => rfl
  | _ => rfl

theorem Message.contentOfWire_prune {rules : List (String × Rule)} (ht : rules.lookup "input_text" = some some)
    (hi : rules.lookup "input_parts" = some (change (mapItems (InputPart.prune Extra.visible some))))
    (ho : rules.lookup "output_parts" = some (change (mapItems (OutputPart.prune Extra.visible)))) (fs : Fields) :
    contentOfWire read (fs.filterMap (pruneField rules)) = contentOfWire read fs := by
  have input := InputPart.ofWire_prune h
  have output := OutputPart.ofWire_prune h
  rw [contentOfWire, contentOfWire, Tree.lookup_keep ht, Tree.lookup_change hi, Tree.lookup_change ho,
    Fields.text_keep ht]
  rcases fs.lookup "input_text" with _ | t <;> rcases fs.lookup "input_parts" with _ | i <;>
    rcases fs.lookup "output_parts" with _ | o
  all_goals simp only [Option.map_some, Option.map_none, Tree.itemsOf_mapItems, bind_map_left, mapM_map_of_eq input,
    mapM_map_of_eq output, Option.toList_some, List.length_singleton]

theorem Message.ofWire_prune (w : Tree) : ofWire read (prune Extra.visible some w) = ofWire read w := by
  refine Tree.fieldsOf_prune (fun fs => ?_) w
  rw [Fields.tag_keep rfl, Fields.index?_keep rfl, Message.contentOfWire_prune h rfl rfl rfl, Extra.ofWire_prune h rfl]

theorem ToolCallOutput.outputOfWire_prune {rules : List (String × Rule)}
    (hc : rules.lookup "custom" = some (change (Tree.prune [("content", some)])))
    (hm : rules.lookup "mcp" = some (change (McpResult.prune Extra.visible))) (callId : String) (fs : Fields) :
    outputOfWire read callId (fs.filterMap (pruneField rules)) = outputOfWire read callId fs := by
  rw [outputOfWire, outputOfWire, Tree.lookup_change hc, Tree.lookup_change hm]
  rcases fs.lookup "custom" with _ | c <;> rcases fs.lookup "mcp" with _ | m
  · rfl
  · exact congrArg ((some ∘ ToolOutput.mcp) <$> ·) (McpResult.ofWire_prune h m)
  · refine Tree.fieldsOf_prune (fun custom => ?_) c
    rw [Fields.text_keep rfl]
  · rfl

theorem ToolCallOutput.ofWire_prune (w : Tree) : ofWire read (prune Extra.visible w) = ofWire read w := by
  refine Tree.fieldsOf_prune (fun fs => ?_) w
  rw [Fields.index?_keep rfl, Fields.tag_keep rfl, Fields.text_keep rfl, Fields.text_keep rfl]
  refine bind_congr fun index => bind_congr fun type => bind_congr fun callId => bind_congr fun toolName => ?_
  rw [ToolCallOutput.outputOfWire_prune h rfl rfl]

theorem Payload.ofWire_prune (held : BlockType) (w : Tree) :
    ofWire read held (prune Extra.visible some held w) = ofWire read held w := by
  cases held with
  | message => exact congrArg (message <$> ·) (Message.ofWire_prune h w)
  | reasoning => exact congrArg (reasoning <$> ·) (Reasoning.ofWire_prune h w)
  | toolCall => exact congrArg (toolCall <$> ·) (ToolCall.ofWire_prune h w)
  | toolCallOutput => exact congrArg (toolCallOutput <$> ·) (ToolCallOutput.ofWire_prune h w)
  | mcpListTools => exact congrArg (mcpListTools <$> ·) (McpListTools.ofWire_prune w)
  | mcpToolApprovalRequest => exact congrArg (mcpToolApprovalRequest <$> ·) (ApprovalRequest.ofWire_prune w)
  | mcpToolApprovalResponse => exact congrArg (mcpToolApprovalResponse <$> ·) (ApprovalResponse.ofWire_prune w)

omit h in
theorem Block.payloadFields_prune (fs : Fields) :
    payloadFields (fs.filterMap (pruneField (rules Extra.visible some))) =
      (payloadFields fs).map fun e => (e.1, Payload.prune Extra.visible some e.1 e.2) := by
  have kept (held : BlockType) : (rules Extra.visible some).lookup held.name =
      some (change (Payload.prune Extra.visible some held)) := by
    cases held <;> rfl
  simp only [payloadFields, List.map_filterMap, Tree.lookup_change (kept _), Option.map_map, Function.comp_def]

theorem Block.ofWire_prune (w : Tree) : ofWire read (prune Extra.visible some w) = ofWire read w := by
  refine Tree.fieldsOf_prune (fun fs => ?_) w
  rw [Fields.tag_keep rfl, Block.payloadFields_prune]
  refine bind_congr fun type => ?_
  rcases payloadFields fs with _ | ⟨⟨held, w⟩, _ | _⟩
  · rfl
  · simp only [List.map_cons, List.map_nil, Payload.ofWire_prune h]
  · rfl

theorem Response.readWire_prune (w : Tree) : readWire read (prune Extra.visible some w) = readWire read w := by
  have optional {X : Type} {ofWire : Tree → Except Malformed X} {prune : Tree → Tree}
      (hsame : ∀ w, ofWire (prune w) = ofWire w) (field : Option Tree) :
      (field.map prune).mapM ofWire = field.mapM ofWire := by
    cases field with
    | none => rfl
    | some w => exact congrArg (some <$> ·) (hsame w)
  refine Tree.fieldsOf_prune (fun fs => ?_) w
  rw [Fields.text_keep rfl, Tree.lookup_change rfl, Tree.lookup_change rfl, optional Finish.ofWire_prune,
    optional Usage.ofWire_prune, Fields.array_change rfl]
  simp only [bind_map_left, mapM_map_of_eq (Block.ofWire_prune h)]

end

variable {F : TypeFamily} {R : Registry F}

theorem Extension.ofWire_visible (key : String) (w : Tree) : ofWire R key (visible w) = ofWire R key w := by
  refine Tree.fieldsOf_prune (fun fs => ?_) w
  rw [Fields.text_keep rfl, Fields.required_keep rfl]

/-- The part of a tree that the reader of responses goes by. -/
def Response.visible : Tree → Tree := prune Extra.visible some

theorem Response.ofWire_visible (w : Tree) : ofWire R (visible w) = ofWire R w :=
  readWire_prune Extension.ofWire_visible w

/-- One tree is the other with fields put in, taken out or changed that no reader looks up, in any of its objects. -/
def Response.Alike (w w' : Tree) : Prop := visible w = visible w'

/-- What is logged as ignored is ignored: the fields that a response has are all that is read of an object. -/
theorem Response.ofWire_known (fs : Fields) :
    ofWire R (.object (fs.filter fun f => knownKeys.contains f.1)) = ofWire R (.object fs) := by
  rw [← ofWire_visible, ← ofWire_visible (.object fs)]
  refine congrArg (ofWire R) (Tree.prune_filter (fun f h => ?_) fs)
  have other : f.1 ∉ knownKeys := by simpa using h
  simp only [knownKeys, List.mem_cons, List.not_mem_nil, not_or] at other
  simp only [List.lookup_cons, beq_eq_false_iff_ne.2, ne_eq, other, not_false_eq_true, List.lookup_nil]

/-- Readers of one tree and of another that differs from it in unread fields have one outcome, a response or a
refusal: later revisions may add fields at every depth. -/
theorem Response.ofWire_alike (R : Registry F) {w w' : Tree} (h : Alike w w') : ofWire R w' = ofWire R w := by
  rw [← ofWire_visible w', ← ofWire_visible w]
  exact congrArg (ofWire R) h.symm

/-- The greeting with fields of a later revision in the turn, the block, the message, its part and a record. -/
def Tree.revised : Tree :=
  .object [
    ("blocks", .array [.object [
      ("message", .object [
        ("extra", .object [("trace", .object [("p", .array [.null, .int 0]), ("t", .text "json")])]),
        ("output_parts", .array [.object [
          ("content", .text "hi"),
          ("detail", .text "none of a text"),
          ("extra", .object [("seen", .object [("p", .bool true), ("since", .ofInt64 2), ("t", .text "vendor.Truth")])]),
          ("type", .text "text")]]),
        ("phase", .text "final"),
        ("role", .text "user")]),
      ("provenance", .object [("model", .text "m-2")]),
      ("type", .text "message")]]),
    ("id", .text "turn"),
    ("service_tier", .text "priority")]

theorem Response.ofWire_alike_revised :
    (∃ r, ofWire .truth Tree.greeting = .ok r ∧ ofWire .truth Tree.revised = .ok r) ∧
    ofWire (∅ : Registry .truth) Tree.revised = .error (.unknownType "seen" "vendor.Truth") := by
  have alike : Alike Tree.greeting Tree.revised := rfl
  exact ⟨⟨_, rfl, ofWire_alike .truth alike⟩, ofWire_alike ∅ alike⟩

end TurnCodec
