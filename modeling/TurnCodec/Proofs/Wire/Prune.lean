import TurnCodec.Proofs.Wire.Fields
import TurnCodec.Wire.Response
/-! The wire grammar as a pruning of trees: the keys that the reader of each object looks
up, with what becomes of the field under each. All other fields go. The rules for
metadata and for the detail of an image are parameters. -/

namespace TurnCodec

namespace Tree

/-- What becomes of a field: a tree in its place, or nothing. -/
abbrev Rule := Tree → Option Tree

def drop : Rule := fun _ => none

theorem bind_drop (t : Option Tree) : t.bind drop = none := by cases t <;> rfl

/-- A field whose tree is changed. -/
def change (f : Tree → Tree) : Rule := fun t => some (f t)

def pruneField (rules : List (String × Rule)) (f : String × Tree) : Option (String × Tree) :=
  (rules.lookup f.1).bind fun rule => (rule f.2).map (f.1, ·)

/-- Keeps the fields of an object that have a rule, as the rule says. -/
def prune (rules : List (String × Rule)) : Tree → Tree
  | object fields => object (fields.filterMap (pruneField rules))
  | t => t

def mapItems (f : Tree → Tree) : Tree → Tree
  | array items => array (items.map f)
  | t => t

/-- The text under a key of an object. -/
def textAt? (key : String) : Tree → Option String
  | object fields =>
    match fields.lookup key with
    | some (.text s) => some s
    | _ => none
  | _ => none

theorem pruneField_eq_some {rules : List (String × Rule)} {f g : String × Tree} :
    pruneField rules f = some g ↔ ∃ rule t, rules.lookup f.1 = some rule ∧ rule f.2 = some t ∧ (f.1, t) = g := by
  simp [pruneField, Option.bind_eq_some_iff, Option.map_eq_some_iff]

theorem ascending_pruned (rules : List (String × Rule)) {fields : Fields} (h : Ascending fields) :
    Ascending (fields.filterMap (pruneField rules)) := by
  rw [Ascending, List.pairwise_filterMap]
  apply h.imp
  intro f g hlt f' hf g' hg
  obtain ⟨_, _, -, -, rfl⟩ := pruneField_eq_some.1 hf
  obtain ⟨_, _, -, -, rfl⟩ := pruneField_eq_some.1 hg
  exact hlt

theorem lookup_pruned (rules : List (String × Rule)) {fields : Fields} (h : Ascending fields) (key : String) :
    (fields.filterMap (pruneField rules)).lookup key =
      (fields.lookup key).bind fun t => (rules.lookup key).bind (· t) := by
  induction fields with
  | nil => rfl
  | cons f fields ih =>
    obtain ⟨k, t⟩ := f
    rw [lookup_entry, List.filterMap_cons]
    by_cases hk : key = k
    · subst hk
      have hnone : fields.lookup key = none := lookup_eq_none fun e he => (Std.ne_of_lt (h.head_lt he)).symm
      have rest : (fields.filterMap (pruneField rules)).lookup key = none := by
        rw [ih h.tail, hnone]
        rfl
      rw [if_pos rfl, Option.bind_some, pruneField]
      cases rules.lookup key with
      | none => exact rest
      | some rule =>
        simp only [Option.bind_some]
        cases rule t with
        | none => exact rest
        | some u => simp
    · rw [if_neg hk, ← ih h.tail]
      cases hf : pruneField rules (k, t) with
      | none => rfl
      | some g =>
        obtain ⟨_, _, -, -, rfl⟩ := pruneField_eq_some.1 hf
        simp only [lookup_entry, if_neg hk]

/-- On ordered fields, pruning is laying out the fields that have a rule. -/
theorem prune_object {rules : List (String × Rule)} (hr : Ascending rules) {fields : Fields} (h : Ascending fields) :
    prune rules (.object fields) = record (rules.map fun r => (r.1, (fields.lookup r.1).bind r.2)) := by
  have hkeys : Ascending (rules.map fun r => (r.1, (fields.lookup r.1).bind r.2)) :=
    hr.map fun r => (fields.lookup r.1).bind r.2
  rw [prune, record_eq]
  refine congrArg Tree.object ((ascending_pruned rules h).ext (ascending_present hkeys) fun key => ?_)
  rw [lookup_pruned rules h, lookup_present hkeys.nodup, lookup_map fun key rule => (fields.lookup key).bind rule]
  cases fields.lookup key <;> cases rules.lookup key <;> rfl

end Tree

open TurnCodec.Tree (Rule prune change drop mapItems)

/-- The block types in the order of their names. -/
def BlockType.byName : List BlockType :=
  [mcpListTools, mcpToolApprovalRequest, mcpToolApprovalResponse, message, reasoning, toolCall, toolCallOutput]

def Media.rules (extra detail name : Rule) : List (String × Rule) :=
  [("base64_data", some), ("detail", detail), ("extra", extra), ("mime_type", some), ("name", name), ("type", some),
    ("url", some)]

/-- The type that a part names, which decides on the other keys. -/
def PartType.ofWire? (w : Tree) : Option PartType := (w.textAt? "type").bind (Named.parse? PartType)

section
variable (extra detail : Rule)

def InputPart.rules : Option PartType → List (String × Rule)
  | none => [("type", some)]
  | some .text => [("content", some), ("type", some)]
  | some .image => Media.rules extra detail drop
  | some .audio | some .video => Media.rules extra drop drop
  | some .file => Media.rules extra drop some

def InputPart.prune (w : Tree) : Tree := w.prune (rules extra detail (PartType.ofWire? w))

def OutputPart.rules : Option PartType → List (String × Rule)
  | none | some .file => [("type", some)]
  | some .text => [("content", some), ("extra", extra), ("type", some)]
  | some .image | some .audio | some .video => Media.rules extra drop drop

def OutputPart.prune (w : Tree) : Tree := w.prune (rules extra (PartType.ofWire? w))

def Message.prune : Tree → Tree := Tree.prune [
  ("extra", extra),
  ("index", some),
  ("input_parts", change (mapItems (InputPart.prune extra detail))),
  ("input_text", some),
  ("output_parts", change (mapItems (OutputPart.prune extra))),
  ("role", some)]

def SummaryFragment.prune : Tree → Tree := Tree.prune [("extra", extra), ("text", some)]

def Reasoning.prune : Tree → Tree := Tree.prune [
  ("encrypted_content", some),
  ("extra", extra),
  ("index", some),
  ("summary", change (mapItems (SummaryFragment.prune extra))),
  ("summary_index", some)]

def ToolCall.prune : Tree → Tree := Tree.prune [
  ("arguments", some), ("extra", extra), ("id", some), ("index", some), ("name", some), ("type", some)]

def McpResult.prune : Tree → Tree := Tree.prune [
  ("approval_request_id", some), ("content", some), ("error", some), ("extra", extra), ("status", some)]

def ToolCallOutput.prune : Tree → Tree := Tree.prune [
  ("custom", change (Tree.prune [("content", some)])),
  ("index", some),
  ("mcp", change (McpResult.prune extra)),
  ("tool_call_id", some),
  ("tool_name", some),
  ("type", some)]

def ToolListing.prune : Tree → Tree := Tree.prune [("description", some), ("input_schema", some), ("name", some)]

def McpListTools.prune : Tree → Tree := Tree.prune [
  ("error", some), ("server_label", some), ("tools", change (mapItems ToolListing.prune))]

def ApprovalRequest.prune : Tree → Tree := Tree.prune [("arguments", some), ("name", some), ("server_label", some)]

def ApprovalResponse.prune : Tree → Tree := Tree.prune [
  ("approval_request_id", some), ("approve", some), ("reason", some)]

def Payload.prune : BlockType → Tree → Tree
  | .message => Message.prune extra detail
  | .reasoning => Reasoning.prune extra
  | .toolCall => ToolCall.prune extra
  | .toolCallOutput => ToolCallOutput.prune extra
  | .mcpListTools => McpListTools.prune
  | .mcpToolApprovalRequest => ApprovalRequest.prune
  | .mcpToolApprovalResponse => ApprovalResponse.prune

/-- Every payload key is looked up, whatever the type of the block. -/
def Block.rules : List (String × Rule) :=
  BlockType.byName.map (fun held => (held.name, change (Payload.prune extra detail held))) ++ [("type", some)]

def Block.prune : Tree → Tree := Tree.prune (rules extra detail)

def Finish.prune : Tree → Tree := Tree.prune [("reason", some), ("status", some)]

def Usage.prune : Tree → Tree := Tree.prune [
  ("input_tokens", some),
  ("input_tokens_details", change (Tree.prune [("cached_tokens", some)])),
  ("output_tokens", some),
  ("output_tokens_details", change (Tree.prune [("reasoning_tokens", some)])),
  ("total_tokens", some)]

def Response.prune : Tree → Tree := Tree.prune [
  ("blocks", change (mapItems (Block.prune extra detail))),
  ("finish_reason", change Finish.prune),
  ("id", some),
  ("usage", change Usage.prune)]

end

end TurnCodec
