import TurnCodec.Proofs.Metadata
import TurnCodec.Proofs.Tree
import TurnCodec.Proofs.Wire.Extension
import TurnCodec.Proofs.Wire.Fields
import TurnCodec.Wire.Response
/-! What a wire tree contains beyond the layout: the payloads of its extension records and
the input schemas of its tools. The layout itself adds no node that is discarded, out
of order or not a number. -/

namespace TurnCodec

open Bearing

/-- The input schemas of the tools that a payload lists. -/
def Payload.schemas {E : Type} : Payload E → List Tree
  | .mcpListTools l => l.tools.filterMap (·.inputSchema)
  | _ => []

def Response.schemas {E : Type} (r : Response E) : List Tree :=
  r.blocks.flatMap fun b => b.payload.toList.flatMap Payload.schemas

theorem Payload.schemas_map {E E' : Type} (f : String → E → E') (p : Payload E) : (map f p).schemas = p.schemas := by
  cases p <;> rfl

theorem Response.schemas_map {E E' : Type} (f : String → E → E') (r : Response E) : (map f r).schemas = r.schemas := by
  rw [schemas, schemas, show (map f r).blocks = r.blocks.map (map f) from rfl, List.flatMap_map]
  apply List.flatMap_congr
  intro b _
  rw [show (map f b).payload = b.payload.map (map f) from rfl]
  cases b.payload <;> simp [Payload.schemas_map]

/-- The tree of a plain value. -/
def Extension.plain? {F : TypeFamily} : Extension F → Option Tree
  | .plain t => some t
  | .typed _ _ => none

/-- The trees that a caller puts into a response as they are: plain metadata and schemas. -/
def Response.supplied {F : TypeFamily} (r : Response (Extension F)) : List Tree :=
  (extras r).filterMap (fun e => e.2.plain?) ++ r.schemas

/-- A property that whatever a layout adds has. -/
structure Tree.Benign (P : Tree → Prop) : Prop where
  bool : ∀ b, P (.bool b)
  int : ∀ n, P (.int n)
  text : ∀ s, P (.text s)
  array : ∀ items, P (.array items)
  object : ∀ fields, Ascending fields → P (.object fields)

namespace Tree

variable {P : Tree → Prop}

/-- Every node of a tree that may be absent has the property. -/
def Each (P : Tree → Prop) (field : Option Tree) : Prop := ∀ t ∈ field, t.All P

@[simp] theorem each_none : Each P none := by simp [Each]

@[simp] theorem each_some {t : Tree} : Each P (some t) ↔ t.All P := by simp [Each]

theorem benign_clean : Benign (· ≠ discarded) := by
  constructor <;> simp

theorem benign_kept : Benign fun n => n ≠ discarded ∧ ∀ fields, n = object fields → Ascending fields := by
  constructor <;> simp

theorem benign_numeric : Benign fun n => ∀ x, n = float x → x.isNaN = false := by
  constructor <;> simp

theorem benign_untagged : Benign fun n => ∀ b m, n = bytes b m → m = none := by
  constructor <;> simp

namespace Benign

variable (hP : Benign P)
include hP

theorem all_bool (b : Bool) : (Tree.bool b).All P := (Tree.all_leaf rfl).2 (hP.bool b)

theorem all_int (n : Integer) : (Tree.int n).All P := (Tree.all_leaf rfl).2 (hP.int n)

theorem all_text (s : String) : (Tree.text s).All P := (Tree.all_leaf rfl).2 (hP.text s)

theorem each_text (s : Option String) : Each P (s.map .text) := by cases s <;> simp [hP.all_text]

theorem each_index (i : Option Int32) : Each P (i.map .ofInt32) := by cases i <;> simp [ofInt32, hP.all_int]

theorem all_array {items : List Tree} : (Tree.array items).All P ↔ ∀ t ∈ items, t.All P := by
  simp [Tree.all_array, hP.array]

theorem all_object {fields : List (String × Tree)} (h : Ascending fields) :
    (Tree.object fields).All P ↔ ∀ f ∈ fields, f.2.All P := by
  simp [Tree.all_object, hP.object fields h]

theorem all_record {fields : List (String × Option Tree)} (h : Ascending fields) :
    (record fields).All P ↔ ∀ e ∈ fields, Each P e.2 := by
  rw [record_eq, hP.all_object (ascending_present h)]
  constructor
  · intro hall e he t ht
    exact hall (e.1, t) (mem_present.2 (by rwa [← Option.mem_def.1 ht]))
  · intro hall f hf
    exact hall _ (mem_present.1 hf) f.2 rfl

end Benign

end Tree

theorem BlockType.name_lt_type (type : BlockType) : type.name < "type" := by
  cases type <;> decide

section
variable {P : Tree → Prop} (hP : Tree.Benign P)
include hP

theorem Extra.layout_all (x : Extra Tree) : Tree.Each P (Extra.layout x) ↔ ∀ e ∈ extras x, e.2.All P := by
  unfold Extra.layout
  by_cases hx : x.isEmpty
  · have he : x.entries = [] := by simpa [Dict.isEmpty] using hx
    simp [hx, extras, he]
  · simp [hx, hP.all_object x.ascending, extras]

theorem Media.layout_all (m : Media Tree) {type : PartType} {detail name : Option Tree}
    (hd : Tree.Each P detail) (hn : Tree.Each P name) :
    (m.layout type detail name).All P ↔ ∀ e ∈ extras m, e.2.All P := by
  rw [Media.layout, hP.all_record (by simp +decide only [ascending_cons_cons, ascending_singleton]),
    show extras m = extras m.extra from rfl,
    ← Extra.layout_all hP]
  simp [hP.all_text, hP.each_text, hd, hn]

theorem ImageDetail.layout_all (d : ImageDetail) : Tree.Each P d.layout := by
  unfold ImageDetail.layout
  split <;> simp [hP.all_text]

theorem InputPart.layout_all (p : InputPart Tree) : p.layout.All P ↔ ∀ e ∈ extras p, e.2.All P := by
  cases p with
  | text s =>
    rw [InputPart.layout, hP.all_object (by simp +decide only [ascending_cons_cons, ascending_singleton])]
    simp [hP.all_text, extras]
  | image m d => exact Media.layout_all hP m (ImageDetail.layout_all hP d) Tree.each_none
  | audio m => exact Media.layout_all hP m Tree.each_none Tree.each_none
  | video m => exact Media.layout_all hP m Tree.each_none Tree.each_none
  | file m name => exact Media.layout_all hP m Tree.each_none (hP.each_text name)

theorem OutputPart.layout_all (p : OutputPart Tree) : p.layout.All P ↔ ∀ e ∈ extras p, e.2.All P := by
  cases p with
  | text s x =>
    rw [OutputPart.layout, hP.all_record (by simp +decide only [ascending_cons_cons, ascending_singleton]),
      show extras (OutputPart.text s x) = extras x from rfl, ← Extra.layout_all hP]
    simp [hP.all_text]
  | image m => exact Media.layout_all hP m Tree.each_none Tree.each_none
  | audio m => exact Media.layout_all hP m Tree.each_none Tree.each_none
  | video m => exact Media.layout_all hP m Tree.each_none Tree.each_none

theorem array_layout_all {X : Type → Type} [Bearing X] {layout : X Tree → Tree}
    (h : ∀ x, (layout x).All P ↔ ∀ e ∈ extras x, e.2.All P) (xs : List (X Tree)) :
    (Tree.array (xs.map layout)).All P ↔ ∀ e ∈ xs.flatMap extras, e.2.All P := by
  rw [hP.all_array, List.forall_mem_map, List.forall_mem_flatMap]
  simp only [h]

theorem Message.layout_all (m : Message Tree) : m.layout.All P ↔ ∀ e ∈ extras m, e.2.All P := by
  obtain ⟨index, role, content, extra⟩ := m
  rw [Message.layout, hP.all_record (by simp +decide only [ascending_cons_cons, ascending_singleton]),
    show extras (Message.mk index role content extra) = extras content ++ extras extra from rfl, List.forall_mem_append,
    ← Extra.layout_all hP]
  cases content with
  | text s => simp [hP.all_text, hP.each_index, extras]
  | input ps =>
    have hps := array_layout_all hP (InputPart.layout_all hP) ps
    simp [hP.all_text, hP.each_index, hps, extras, and_comm]
  | output ps =>
    have hps := array_layout_all hP (OutputPart.layout_all hP) ps
    simp [hP.all_text, hP.each_index, hps, extras, and_comm]

theorem SummaryFragment.layout_all (f : SummaryFragment Tree) : f.layout.All P ↔ ∀ e ∈ extras f, e.2.All P := by
  rw [SummaryFragment.layout, hP.all_record (by simp +decide only [ascending_cons_cons, ascending_singleton]),
    show extras f = extras f.extra from rfl,
    ← Extra.layout_all hP]
  simp [hP.all_text]

theorem Reasoning.layout_all (r : Reasoning Tree) : r.layout.All P ↔ ∀ e ∈ extras r, e.2.All P := by
  have hsummary := array_layout_all hP (SummaryFragment.layout_all hP) r.summary
  rw [Reasoning.layout, hP.all_record (by simp +decide only [ascending_cons_cons, ascending_singleton]),
    show extras r = r.summary.flatMap extras ++ extras r.extra from rfl, List.forall_mem_append, ← Extra.layout_all hP,
    ← hsummary]
  simp [hP.all_text, hP.each_index, and_comm]

theorem ToolCall.layout_all (c : ToolCall Tree) : c.layout.All P ↔ ∀ e ∈ extras c, e.2.All P := by
  rw [ToolCall.layout, hP.all_record (by simp +decide only [ascending_cons_cons, ascending_singleton]),
    show extras c = extras c.extra from rfl,
    ← Extra.layout_all hP]
  simp [hP.all_text, hP.each_index]

theorem McpResult.layout_all (r : McpResult Tree) : r.layout.All P ↔ ∀ e ∈ extras r, e.2.All P := by
  rw [McpResult.layout, hP.all_record (by simp +decide only [ascending_cons_cons, ascending_singleton]),
    show extras r = extras r.extra from rfl,
    ← Extra.layout_all hP]
  simp [hP.all_text]

theorem ToolCallOutput.layout_all (o : ToolCallOutput Tree) : o.layout.All P ↔ ∀ e ∈ extras o, e.2.All P := by
  obtain ⟨index, type, callId, toolName, output⟩ := o
  rw [ToolCallOutput.layout, hP.all_record (by simp +decide only [ascending_cons_cons, ascending_singleton])]
  cases output with
  | none => simp [hP.all_text, hP.each_index, extras]
  | some held =>
    cases held with
    | custom s =>
      have hcustom : (Tree.object [("content", .text s)]).All P := by
        rw [hP.all_object (ascending_singleton _)]
        simp [hP.all_text]
      simp [hP.all_text, hP.each_index, hcustom, extras]
    | mcp r => simp [hP.all_text, hP.each_index, McpResult.layout_all hP, extras]

theorem ToolListing.layout_all (l : ToolListing) : l.layout.All P ↔ Tree.Each P l.inputSchema := by
  rw [ToolListing.layout, hP.all_record (by simp +decide only [ascending_cons_cons, ascending_singleton])]
  simp [hP.all_text]

theorem McpListTools.layout_all (l : McpListTools) :
    l.layout.All P ↔ ∀ s ∈ l.tools.filterMap (·.inputSchema), s.All P := by
  rw [McpListTools.layout, hP.all_object (by simp +decide only [ascending_cons_cons, ascending_singleton])]
  simp only [List.forall_mem_cons, hP.all_text, hP.all_array, List.forall_mem_map, ToolListing.layout_all hP,
    List.mem_filterMap]
  constructor
  · rintro ⟨-, -, h, -⟩ s ⟨tool, htool, hs⟩
    exact h tool htool s hs
  · intro h
    exact ⟨trivial, trivial, fun tool htool s hs => h s ⟨tool, htool, hs⟩, by simp⟩

theorem Payload.layout_all (p : Payload Tree) :
    p.layout.All P ↔ (∀ e ∈ extras p, e.2.All P) ∧ ∀ s ∈ p.schemas, s.All P := by
  cases p with
  | message m => exact (m.layout_all hP).trans (and_iff_left (by simp [schemas])).symm
  | reasoning r => exact (r.layout_all hP).trans (and_iff_left (by simp [schemas])).symm
  | toolCall c => exact (c.layout_all hP).trans (and_iff_left (by simp [schemas])).symm
  | toolCallOutput o => exact (o.layout_all hP).trans (and_iff_left (by simp [schemas])).symm
  | mcpListTools l => exact (l.layout_all hP).trans (and_iff_right (by simp [extras])).symm
  | mcpToolApprovalRequest q =>
    rw [layout, ApprovalRequest.layout,
      hP.all_object (by simp +decide only [ascending_cons_cons, ascending_singleton])]
    simp [hP.all_text, extras, schemas]
  | mcpToolApprovalResponse a =>
    rw [layout, ApprovalResponse.layout,
      hP.all_object (by simp +decide only [ascending_cons_cons, ascending_singleton])]
    simp [hP.all_text, hP.all_bool, extras, schemas]

theorem Block.layout_all (b : Block Tree) :
    b.layout.All P ↔ (∀ e ∈ extras b, e.2.All P) ∧ ∀ s ∈ b.payload.toList.flatMap Payload.schemas, s.All P := by
  obtain ⟨type, payload⟩ := b
  cases payload with
  | none =>
    rw [layout, hP.all_object (ascending_singleton _)]
    simp [hP.all_text, extras]
  | some held =>
    have order : Ascending [(held.type.name, held.layout), ("type", Tree.text type.name)] :=
      ascending_cons_cons.2 ⟨held.type.name_lt_type, ascending_singleton _⟩
    rw [layout, hP.all_object order]
    simpa [hP.all_text, extras] using held.layout_all hP

theorem Finish.layout_all (f : Finish) : f.layout.All P := by
  rw [layout, hP.all_object (by simp +decide only [ascending_cons_cons, ascending_singleton])]
  simp [hP.all_text]

theorem Usage.layout_all (u : Usage) : u.layout.All P := by
  have count (key : String) (n : Int64) : (Tree.object [(key, .int (.ofInt64 n))]).All P := by
    rw [hP.all_object (List.pairwise_singleton _ _)]
    simp [hP.all_int]
  rw [layout, hP.all_object (by simp +decide only [ascending_cons_cons, ascending_singleton])]
  simp [Tree.ofInt64, hP.all_int, count]

theorem Response.layout_all (r : Response Tree) :
    r.layout.All P ↔ (∀ e ∈ extras r, e.2.All P) ∧ ∀ s ∈ r.schemas, s.All P := by
  obtain ⟨id, finish, usage, blocks⟩ := r
  have hfinish : Tree.Each P (finish.map (·.layout)) := by cases finish <;> simp [Finish.layout_all hP]
  have husage : Tree.Each P (usage.map (·.layout)) := by cases usage <;> simp [Usage.layout_all hP]
  rw [layout, hP.all_record (by simp +decide only [ascending_cons_cons, ascending_singleton]),
    show extras (Response.mk id finish usage blocks) = blocks.flatMap extras from rfl, schemas]
  simp only [List.forall_mem_cons, hfinish, husage, hP.all_text, Tree.each_some, hP.all_array, List.forall_mem_map,
    Block.layout_all hP, List.forall_mem_flatMap (l := blocks)]
  constructor
  · rintro ⟨h, -⟩
    exact ⟨fun b hb => (h b hb).1, fun b hb => (h b hb).2⟩
  · rintro ⟨he, hs⟩
    exact ⟨fun b hb => ⟨he b hb, hs b hb⟩, by simp⟩

variable {F : TypeFamily} {R : Registry F}

/-- The record of a value has the property if the payload does. -/
theorem Extension.toWire_all (hE : ∀ c ∈ R.bindings, ∀ v p, c.2.encode v = .ok p → p.All P) {key : String}
    {x : Extension F} {w : Tree} (h : x.toWire R key = .ok w) : w.All P ↔ Tree.Each P x.plain? := by
  have record_all (id : String) (p : Tree) : (record id p).All P ↔ p.All P := by
    rw [record, hP.all_object (by simp +decide only [ascending_cons_cons, ascending_singleton])]
    simp [hP.all_text]
  cases x with
  | plain t =>
    obtain ⟨-, rfl⟩ := toWire_plain.1 h
    simpa [plain?] using record_all plainId t
  | typed k v =>
    obtain ⟨b, p, hb, hp, rfl⟩ := toWire_typed.1 h
    simpa [plain?, record_all] using hE _ (Registry.mem_of_byType? hb) v p hp

theorem Response.toWire_all (hE : ∀ c ∈ R.bindings, ∀ v p, c.2.encode v = .ok p → p.All P)
    {r : Response (Extension F)} {w : Tree} (h : r.toWire R = .ok w) : w.All P ↔ ∀ t ∈ r.supplied, t.All P := by
  obtain ⟨s, hs, rfl⟩ := map_eq_ok.1 h
  obtain ⟨hok, rfl⟩ := (visit_eq_ok (X := Response)).1 hs
  have each (e : String × Extension F) (he : e ∈ extras r) :
      (valueOf (Extension.toWire R) e.1 e.2).All P ↔ Tree.Each P e.2.plain? := by
    obtain ⟨w, hw⟩ := hok e he
    rw [valueOf_eq hw]
    exact Extension.toWire_all hP hE hw
  rw [layout_all hP, schemas_map, extras_map, List.forall_mem_map, supplied, List.forall_mem_append]
  apply and_congr_left
  intro _
  rw [forall₂_congr each]
  simp only [Tree.Each, List.mem_filterMap]
  constructor
  · rintro h t ⟨e, he, ht⟩
    exact h e he t ht
  · intro h e he t ht
    exact h t ⟨e, he, ht⟩

end

/-- A wire tree has a written form exactly when every tree that the caller supplied has one. -/
theorem Response.clean_toWire {F : TypeFamily} {R : Registry F}
    (hE : ∀ c ∈ R.bindings, ∀ v p, c.2.encode v = .ok p → p.Clean)
    {r : Response (Extension F)} {w : Tree} (h : r.toWire R = .ok w) : w.Clean ↔ ∀ t ∈ r.supplied, t.Clean :=
  toWire_all Tree.benign_clean hE h

/-- It is kept as programs keep trees exactly when all of those are. -/
theorem Response.kept_toWire {F : TypeFamily} {R : Registry F}
    (hE : ∀ c ∈ R.bindings, ∀ v p, c.2.encode v = .ok p → p.Kept)
    {r : Response (Extension F)} {w : Tree} (h : r.toWire R = .ok w) : w.Kept ↔ ∀ t ∈ r.supplied, t.Kept :=
  toWire_all Tree.benign_kept hE h

/-- A discarded value inside the metadata of a tool call, and one as the schema of a tool. -/
def Response.unseen : Response (Extension .truth) where
  id := "turn"
  blocks := [
    { type := .toolCall
      payload := some (.toolCall { extra := Dict.empty.put "bad" (.plain (.array [.discarded])) }) },
    { type := .mcpListTools, payload := some (.mcpListTools { tools := [{ inputSchema := some .discarded }] }) }]

theorem Registry.truth_clean : ∀ c ∈ truth.bindings, ∀ v p, c.2.encode v = .ok p → p.Clean := by
  intro c hc v p h
  obtain rfl := List.mem_singleton.1 hc
  cases h
  simp [Tree.Clean, Tree.All, Tree.nodes]

theorem Response.clean_toWire_unseen :
    ∃ w, unseen.toWire .truth = .ok w ∧ (w.Clean ↔ ∀ t ∈ unseen.supplied, t.Clean) :=
  ⟨_, rfl, clean_toWire Registry.truth_clean rfl⟩

/-- The check on plain values looks at their top alone, and schemas are not checked at all. -/
theorem Response.toWire_unseen : ¬ ∀ (R : Registry .truth) (r : Response (Extension .truth)) (w : Tree),
    (∀ c ∈ R.bindings, ∀ v p, c.2.encode v = .ok p → p.Clean) → r.toWire R = .ok w → w.Clean := by
  intro h
  have hr : unseen.toWire .truth = .ok _ := rfl
  have hall := (toWire_all Tree.benign_clean Registry.truth_clean hr).1 (h _ _ _ Registry.truth_clean hr)
  have hmem : Tree.array [.discarded] ∈ unseen.supplied := List.mem_cons_self
  exact ((Tree.all_array.1 (hall _ hmem)).2 .discarded List.mem_cons_self).self rfl

end TurnCodec
