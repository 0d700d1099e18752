import TurnCodec.Proofs.Wire.Fields
import TurnCodec.Wire.Response
/-! Reading what was laid out. Each reader, on the layout of some content, finds every
field under its key and is left with visiting the metadata. -/

namespace TurnCodec

variable {E : Type} (read : String → Tree → Except Malformed E)

open TurnCodec.Tree (present lookup_present)

theorem Extra.ofWire_layout {fs : Fields} {x : Extra Tree} (h : fs.lookup "extra" = Extra.layout x) :
    Extra.ofWire read fs = x.traverse read := by
  unfold Extra.ofWire Extra.layout at *
  rw [h]
  by_cases hx : x.isEmpty
  · have he : x.entries = [] := by simpa [Dict.isEmpty] using hx
    simp [hx, Dict.traverse, he]
    rfl
  · simp only [hx, Bool.false_eq_true, if_false, Tree.fieldsOf, ok_bind]
    rfl

/-- What a reader finds in the layout of a medium: the fields of its own part, and the medium. -/
theorem Media.fields_layout (m : Media Tree) (type : PartType) (detail name : Option Tree) :
    ∃ fs, m.layout type detail name = .object fs ∧ fs.lookup "type" = some (.text (Named.name type)) ∧
      fs.lookup "detail" = detail ∧ fs.lookup "name" = name ∧ Media.ofWire read fs = m.traverse read := by
  obtain ⟨fs, hfs, at_⟩ := Tree.of_record (show Tree.record _ = m.layout type detail name from rfl) (by simp)
  have url : fs.lookup "url" = m.url.map .text := at_ "url"
  have data : fs.lookup "base64_data" = m.base64Data.map .text := at_ "base64_data"
  refine ⟨fs, hfs, at_ "type", at_ "detail", at_ "name", ?_⟩
  rw [Media.ofWire, Fields.text?_eq_ok.2 url, Fields.text?_eq_ok.2 data, Fields.text_eq_ok.2 (at_ "mime_type"),
    Extra.ofWire_layout read (at_ "extra")]
  rfl

theorem ImageDetail.ofWire_layout {fs : Fields} {d : ImageDetail} (h : fs.lookup "detail" = d.layout) :
    ImageDetail.ofWire fs = .ok d := by
  unfold ImageDetail.ofWire ImageDetail.layout Fields.has at *
  by_cases hd : d = .unspecified
  · simp [h, hd]
  · rw [if_neg hd] at h
    rw [h]
    exact Fields.tag_eq_ok.2 h

theorem InputPart.ofWire_layout (p : InputPart Tree) : InputPart.ofWire read p.layout = p.traverse read := by
  unfold InputPart.ofWire
  cases p with
  | text s => rfl
  | image m d =>
    obtain ⟨fs, hfs, htype, hdetail, -, hm⟩ := Media.fields_layout read m .image d.layout none
    rw [InputPart.layout, hfs, Tree.fieldsOf, ok_bind, Fields.tag_eq_ok.2 htype, ok_bind]
    simp only [hm, ImageDetail.ofWire_layout hdetail]
    rfl
  | audio m =>
    obtain ⟨fs, hfs, htype, -, -, hm⟩ := Media.fields_layout read m .audio none none
    rw [InputPart.layout, hfs, Tree.fieldsOf, ok_bind, Fields.tag_eq_ok.2 htype, ok_bind]
    simp only [hm]
    rfl
  | video m =>
    obtain ⟨fs, hfs, htype, -, -, hm⟩ := Media.fields_layout read m .video none none
    rw [InputPart.layout, hfs, Tree.fieldsOf, ok_bind, Fields.tag_eq_ok.2 htype, ok_bind]
    simp only [hm]
    rfl
  | file m n =>
    obtain ⟨fs, hfs, htype, -, hname, hm⟩ := Media.fields_layout read m .file none (n.map .text)
    rw [InputPart.layout, hfs, Tree.fieldsOf, ok_bind, Fields.tag_eq_ok.2 htype, ok_bind]
    simp only [hm, Fields.text?_eq_ok.2 hname]
    rfl

theorem OutputPart.ofWire_layout (p : OutputPart Tree) : OutputPart.ofWire read p.layout = p.traverse read := by
  unfold OutputPart.ofWire
  cases p with
  | text s x =>
    obtain ⟨fs, hfs, at_⟩ := Tree.of_record (show Tree.record _ = (OutputPart.text s x).layout from rfl) (by simp)
    rw [hfs, Tree.fieldsOf, ok_bind, Fields.tag_eq_ok.2 (at_ "type"), ok_bind]
    simp only [Fields.text_eq_ok.2 (at_ "content"), Extra.ofWire_layout read (at_ "extra")]
    rfl
  | image m =>
    obtain ⟨fs, hfs, htype, -, -, hm⟩ := Media.fields_layout read m .image none none
    rw [OutputPart.layout, hfs, Tree.fieldsOf, ok_bind, Fields.tag_eq_ok.2 htype, ok_bind]
    simp only [hm]
    rfl
  | audio m =>
    obtain ⟨fs, hfs, htype, -, -, hm⟩ := Media.fields_layout read m .audio none none
    rw [OutputPart.layout, hfs, Tree.fieldsOf, ok_bind, Fields.tag_eq_ok.2 htype, ok_bind]
    simp only [hm]
    rfl
  | video m =>
    obtain ⟨fs, hfs, htype, -, -, hm⟩ := Media.fields_layout read m .video none none
    rw [OutputPart.layout, hfs, Tree.fieldsOf, ok_bind, Fields.tag_eq_ok.2 htype, ok_bind]
    simp only [hm]
    rfl

theorem InputPart.ofWire_layouts (ps : List (InputPart Tree)) :
    (ps.map (·.layout)).mapM (InputPart.ofWire read) = ps.mapM (·.traverse read) := by
  rw [List.mapM_map]
  exact congrArg ps.mapM (funext (ofWire_layout read))

theorem OutputPart.ofWire_layouts (ps : List (OutputPart Tree)) :
    (ps.map (·.layout)).mapM (OutputPart.ofWire read) = ps.mapM (·.traverse read) := by
  rw [List.mapM_map]
  exact congrArg ps.mapM (funext (ofWire_layout read))

theorem Message.ofWire_layout (m : Message Tree) : Message.ofWire read m.layout = m.traverse read := by
  obtain ⟨index, role, content, extra⟩ := m
  obtain ⟨fs, hfs, at_⟩ :=
    Tree.of_record (show Tree.record _ = layout ⟨index, role, content, extra⟩ from rfl) (by simp)
  have hindex : fs.lookup "index" = index.map .ofInt32 := at_ "index"
  have hcontent : contentOfWire read fs = content.traverse read := by
    unfold contentOfWire
    cases content with
    | text s =>
      have ht : fs.lookup "input_text" = some (.text s) := at_ "input_text"
      have hi : fs.lookup "input_parts" = none := at_ "input_parts"
      have ho : fs.lookup "output_parts" = none := at_ "output_parts"
      simp only [ht, hi, ho, Fields.text_eq_ok.2 ht]
      rfl
    | input ps =>
      have ht : fs.lookup "input_text" = none := at_ "input_text"
      have hi : fs.lookup "input_parts" = some (.array (ps.map (·.layout))) := at_ "input_parts"
      have ho : fs.lookup "output_parts" = none := at_ "output_parts"
      simp only [ht, hi, ho, Tree.itemsOf, ok_bind, InputPart.ofWire_layouts]
      rfl
    | output ps =>
      have ht : fs.lookup "input_text" = none := at_ "input_text"
      have hi : fs.lookup "input_parts" = none := at_ "input_parts"
      have ho : fs.lookup "output_parts" = some (.array (ps.map (·.layout))) := at_ "output_parts"
      simp only [ht, hi, ho, Tree.itemsOf, ok_bind, OutputPart.ofWire_layouts]
      rfl
  rw [Message.ofWire, hfs, Tree.fieldsOf, ok_bind, Fields.tag_eq_ok.2 (at_ "role"), ok_bind,
    Fields.index?_eq_ok.2 hindex, ok_bind, hcontent, Extra.ofWire_layout read (at_ "extra")]
  rfl

theorem SummaryFragment.ofWire_layout (s : SummaryFragment Tree) :
    SummaryFragment.ofWire read s.layout = s.traverse read := by
  obtain ⟨fs, hfs, at_⟩ := Tree.of_record (show Tree.record _ = s.layout from rfl) (by simp)
  rw [SummaryFragment.ofWire, hfs, Tree.fieldsOf, ok_bind, Fields.text_eq_ok.2 (at_ "text"), ok_bind,
    Extra.ofWire_layout read (at_ "extra")]
  rfl

theorem SummaryFragment.ofWire_layouts (ss : List (SummaryFragment Tree)) :
    (ss.map (·.layout)).mapM (SummaryFragment.ofWire read) = ss.mapM (·.traverse read) := by
  rw [List.mapM_map]
  exact congrArg ss.mapM (funext (ofWire_layout read))

theorem Reasoning.ofWire_layout (r : Reasoning Tree) : Reasoning.ofWire read r.layout = r.traverse read := by
  obtain ⟨fs, hfs, at_⟩ := Tree.of_record (show Tree.record _ = r.layout from rfl) (by simp)
  have hindex : fs.lookup "index" = r.index.map .ofInt32 := at_ "index"
  have hsummary : fs.lookup "summary_index" = r.summaryIndex.map .ofInt32 := at_ "summary_index"
  rw [Reasoning.ofWire, hfs, Tree.fieldsOf, ok_bind, Fields.index?_eq_ok.2 hindex, ok_bind,
    Fields.index?_eq_ok.2 hsummary, ok_bind, Fields.array_eq_ok.2 (at_ "summary"), ok_bind,
    SummaryFragment.ofWire_layouts, Fields.text_eq_ok.2 (at_ "encrypted_content")]
  simp only [ok_bind, Extra.ofWire_layout read (at_ "extra")]
  rfl

theorem ToolCall.ofWire_layout (c : ToolCall Tree) : ToolCall.ofWire read c.layout = c.traverse read := by
  obtain ⟨fs, hfs, at_⟩ := Tree.of_record (show Tree.record _ = c.layout from rfl) (by simp)
  have hindex : fs.lookup "index" = c.index.map .ofInt32 := at_ "index"
  rw [ToolCall.ofWire, hfs, Tree.fieldsOf, ok_bind, Fields.index?_eq_ok.2 hindex, ok_bind,
    Fields.tag_eq_ok.2 (at_ "type"), ok_bind, Fields.text_eq_ok.2 (at_ "id"), ok_bind,
    Fields.text_eq_ok.2 (at_ "name"), ok_bind, Fields.text_eq_ok.2 (at_ "arguments"), ok_bind,
    Extra.ofWire_layout read (at_ "extra")]
  rfl

theorem McpResult.ofWire_layout (r : McpResult Tree) : McpResult.ofWire read r.layout = r.traverse read := by
  obtain ⟨fs, hfs, at_⟩ := Tree.of_record (show Tree.record _ = r.layout from rfl) (by simp)
  rw [McpResult.ofWire, hfs, Tree.fieldsOf, ok_bind, Fields.text_eq_ok.2 (at_ "content"), ok_bind,
    Fields.text_eq_ok.2 (at_ "approval_request_id"), ok_bind, Fields.tag_eq_ok.2 (at_ "status"), ok_bind,
    Fields.text_eq_ok.2 (at_ "error"), ok_bind, Extra.ofWire_layout read (at_ "extra")]
  rfl

theorem ToolCallOutput.ofWire_layout (o : ToolCallOutput Tree) :
    ToolCallOutput.ofWire read o.layout = o.traverse read := by
  obtain ⟨index, type, callId, toolName, output⟩ := o
  obtain ⟨fs, hfs, at_⟩ :=
    Tree.of_record (show Tree.record _ = layout ⟨index, type, callId, toolName, output⟩ from rfl) (by simp)
  have hindex : fs.lookup "index" = index.map .ofInt32 := at_ "index"
  have houtput : outputOfWire read callId fs = output.mapM (·.traverse read) := by
    unfold outputOfWire
    cases output with
    | none =>
      have hc : fs.lookup "custom" = none := at_ "custom"
      have hm : fs.lookup "mcp" = none := at_ "mcp"
      simp only [hc, hm]
      rfl
    | some held =>
      cases held with
      | custom s =>
        have hc : fs.lookup "custom" = some (.object [("content", .text s)]) := at_ "custom"
        have hm : fs.lookup "mcp" = none := at_ "mcp"
        simp only [hc, hm]
        rfl
      | mcp r =>
        have hc : fs.lookup "custom" = none := at_ "custom"
        have hm : fs.lookup "mcp" = some r.layout := at_ "mcp"
        simp only [hc, hm, McpResult.ofWire_layout, Option.mapM_some, ToolOutput.traverse]
        cases r.traverse read <;> rfl
  rw [ToolCallOutput.ofWire, hfs, Tree.fieldsOf, ok_bind, Fields.index?_eq_ok.2 hindex, ok_bind,
    Fields.tag_eq_ok.2 (at_ "type"), ok_bind, Fields.text_eq_ok.2 (at_ "tool_call_id"), ok_bind,
    Fields.text_eq_ok.2 (at_ "tool_name"), ok_bind, houtput]
  rfl

theorem ToolListing.ofWire_layout (l : ToolListing) : ofWire l.layout = .ok l := by
  obtain ⟨fs, hfs, at_⟩ := Tree.of_record (show Tree.record _ = l.layout from rfl) (by simp)
  have hschema : fs.lookup "input_schema" = l.inputSchema := at_ "input_schema"
  rw [ofWire, hfs, Tree.fieldsOf, ok_bind, Fields.text_eq_ok.2 (at_ "name"), ok_bind,
    Fields.text_eq_ok.2 (at_ "description"), ok_bind, hschema]
  rfl

theorem ToolListing.ofWire_layouts (ls : List ToolListing) : (ls.map (·.layout)).mapM ofWire = .ok ls := by
  rw [List.mapM_map, mapM_eq_ok, List.forall₂_same]
  exact fun l _ => ofWire_layout l

theorem McpListTools.ofWire_layout (l : McpListTools) : ofWire l.layout = .ok l := by
  unfold ofWire layout
  simp only [Tree.fieldsOf, ok_bind]
  rw [Fields.text_eq_ok.2 rfl, ok_bind, Fields.array_eq_ok.2 rfl, ok_bind, ToolListing.ofWire_layouts, ok_bind,
    Fields.text_eq_ok.2 rfl]
  rfl

theorem ApprovalRequest.ofWire_layout (q : ApprovalRequest) : ofWire q.layout = .ok q := rfl

theorem ApprovalResponse.ofWire_layout (a : ApprovalResponse) : ofWire a.layout = .ok a := rfl

theorem Payload.ofWire_layout (p : Payload Tree) : Payload.ofWire read p.type p.layout = p.traverse read := by
  cases p with
  | message m => exact congrArg (message <$> ·) (m.ofWire_layout read)
  | reasoning r => exact congrArg (reasoning <$> ·) (r.ofWire_layout read)
  | toolCall c => exact congrArg (toolCall <$> ·) (c.ofWire_layout read)
  | toolCallOutput o => exact congrArg (toolCallOutput <$> ·) (o.ofWire_layout read)
  | mcpListTools l => exact congrArg (mcpListTools <$> ·) l.ofWire_layout
  | mcpToolApprovalRequest q => rfl
  | mcpToolApprovalResponse a => rfl

/-- The tag of a block is not the key of a payload. -/
theorem Block.payloadFields_single (held : BlockType) (w type : Tree) :
    payloadFields [(held.name, w), ("type", type)] = [(held, w)] := by
  cases held <;> rfl

theorem Block.ofWire_layout (b : Block Tree) : Block.ofWire read b.layout = b.traverse read := by
  obtain ⟨type, payload⟩ := b
  cases payload with
  | none => cases type <;> rfl
  | some held =>
    have htype : List.lookup "type" [(held.type.name, held.layout), ("type", .text type.name)] =
        some (Tree.text (Named.name type)) := by
      cases held <;> rfl
    simp only [ofWire, layout, Tree.fieldsOf, ok_bind, Fields.tag_eq_ok.2 htype, payloadFields_single,
      held.ofWire_layout read, traverse, Option.mapM_some]
    cases held.traverse read <;> rfl

theorem Block.ofWire_layouts (bs : List (Block Tree)) :
    (bs.map (·.layout)).mapM (Block.ofWire read) = bs.mapM (·.traverse read) := by
  rw [List.mapM_map]
  exact congrArg bs.mapM (funext (ofWire_layout read))

theorem Finish.ofWire_layout (f : Finish) : ofWire f.layout = .ok f := by
  unfold ofWire layout
  rw [Tree.fieldsOf, ok_bind, Fields.tag_eq_ok.2 rfl, ok_bind, Fields.text_eq_ok.2 rfl]
  rfl

theorem Usage.ofWire_layout (u : Usage) : ofWire u.layout = .ok u := by
  unfold ofWire layout
  rw [Tree.fieldsOf, ok_bind, Fields.count_eq_ok.2 rfl, ok_bind, Fields.object_eq_ok.2 rfl, ok_bind,
    Fields.count_eq_ok.2 rfl, ok_bind, Fields.count_eq_ok.2 rfl, ok_bind, Fields.object_eq_ok.2 rfl, ok_bind,
    Fields.count_eq_ok.2 rfl, ok_bind, Fields.count_eq_ok.2 rfl]
  rfl

/-- To read the layout of a response is to visit its metadata. -/
theorem Response.readWire_layout (r : Response Tree) : readWire read r.layout = r.traverse read := by
  obtain ⟨fs, hfs, at_⟩ := Tree.of_record (show Tree.record _ = r.layout from rfl) (by simp)
  have hfinish : fs.lookup "finish_reason" = r.finish.map (·.layout) := at_ "finish_reason"
  have husage : fs.lookup "usage" = r.usage.map (·.layout) := at_ "usage"
  have finish_ok : (r.finish.map (·.layout)).mapM Finish.ofWire = .ok r.finish := by
    cases r.finish <;> simp [Finish.ofWire_layout]
  have usage_ok : (r.usage.map (·.layout)).mapM Usage.ofWire = .ok r.usage := by
    cases r.usage <;> simp [Usage.ofWire_layout]
  rw [readWire, hfs, Tree.fieldsOf, ok_bind, Fields.text_eq_ok.2 (at_ "id"), ok_bind, hfinish, finish_ok, ok_bind,
    husage, usage_ok, ok_bind, Fields.array_eq_ok.2 (at_ "blocks"), ok_bind, Block.ofWire_layouts]
  rfl

end TurnCodec
