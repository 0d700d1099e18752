import TurnCodec.Proofs.Tree
import TurnCodec.Proofs.Wire.Extension
import TurnCodec.Proofs.Wire.Prune
import TurnCodec.Wire.Response
/-! Writing what was read. A tree that is read comes back pruned: without the fields that
nothing reads, without empty metadata, and with typed payloads encoded anew. -/

namespace TurnCodec

open TurnCodec.Tree (Rule prune_object change drop mapItems)

/-- What becomes of metadata: empty metadata goes, and each record is changed. -/
def Extra.rule (again : Tree → Tree) : Rule
  | .object [] => none
  | .object records => some (.object (records.map fun r => (r.1, again r.2)))
  | t => some t

/-- An unspecified detail goes. -/
def ImageDetail.rule : Rule
  | .text s => if s = "" then none else some (.text s)
  | t => some t

/-- Content that is read is written, and its layout is the tree as `canon` changes it. -/
def Returns {X Y : Type} (P : Tree → Prop) (ofWire : Tree → Except Malformed X) (traverse : X → Except Unwritable Y)
    (layout : Y → Tree) (canon : Tree → Tree) : Prop :=
  ∀ w x, w.All P → ofWire w = .ok x → ∃ y, traverse x = .ok y ∧ layout y = canon w

/-- Values of metadata that are read from records are written as the records are changed. -/
structure Rewriting {E : Type} (P : Tree → Prop) (read : String → Tree → Except Malformed E)
    (write : String → E → Except Unwritable Tree) (again : Tree → Tree) : Prop where
  ascending : ∀ {fs}, P (.object fs) → Ascending fs
  back : ∀ {key w x}, w.All P → read key w = .ok x → write key x = .ok (again w)

theorem Returns.items {X Y : Type} {P : Tree → Prop} {ofWire : Tree → Except Malformed X}
    {traverse : X → Except Unwritable Y} {layout : Y → Tree} {canon : Tree → Tree}
    (h : Returns P ofWire traverse layout canon) {items : List Tree} {xs : List X} (hP : (Tree.array items).All P)
    (hxs : items.mapM ofWire = .ok xs) : ∃ ys, xs.mapM traverse = .ok ys ∧ ys.map layout = items.map canon := by
  have hitems := (Tree.all_array.1 hP).2
  simp only [mapM_eq_ok] at hxs ⊢
  clear hP
  induction hxs with
  | nil => exact ⟨[], .nil, rfl⟩
  | cons hx _ ih =>
    obtain ⟨hw, hrest⟩ := List.forall_mem_cons.1 hitems
    obtain ⟨y, hy, hl⟩ := h _ _ hw hx
    obtain ⟨ys, hys, hls⟩ := ih hrest
    exact ⟨y :: ys, .cons hy hys, by rw [List.map_cons, List.map_cons, hl, hls]⟩

theorem Returns.optional {X : Type} {P : Tree → Prop} {ofWire : Tree → Except Malformed X} {layout : X → Tree}
    {canon : Tree → Tree} (h : Returns P ofWire .ok layout canon) {field : Option Tree} {x : Option X}
    (hP : ∀ t, field = some t → t.All P) (hx : field.mapM ofWire = .ok x) :
    x.map layout = field.bind (change canon) := by
  cases field with
  | none =>
    cases hx
    rfl
  | some w =>
    rw [Option.mapM_some, map_eq_ok] at hx
    obtain ⟨v, hv, rfl⟩ := hx
    obtain ⟨_, ⟨⟩, hl⟩ := h w v (hP w rfl) hv
    exact congrArg some hl

namespace Rewriting

variable {E : Type} {P : Tree → Prop} {read : String → Tree → Except Malformed E}
  {write : String → E → Except Unwritable Tree} {again : Tree → Tree}

/-- What holds of an object holds of the tree under each key, and its keys ascend. -/
theorem fields (h : Rewriting P read write again) {fs : Fields} (hP : (Tree.object fs).All P) :
    Ascending fs ∧ ∀ {key t}, fs.lookup key = some t → t.All P := by
  obtain ⟨hfs, hall⟩ := Tree.all_object.1 hP
  exact ⟨h.ascending hfs, fun ht => hall _ (mem_of_lookup ht)⟩

/-- An object that is pruned is the record of the fields that have a rule. -/
theorem pruned (h : Rewriting P read write again) {fs : Fields} (hP : (Tree.object fs).All P)
    {rules : List (String × Rule)} (hr : Ascending rules) :
    Tree.prune rules (.object fs) = Tree.record (rules.map fun r => (r.1, (fs.lookup r.1).bind r.2)) :=
  prune_object hr (h.fields hP).1

theorem records (h : Rewriting P read write again) {records : Fields} {values : List (String × E)}
    (hP : ∀ r ∈ records, r.2.All P)
    (hread : List.Forall₂ (fun r v => ∃ x, read r.1 r.2 = .ok x ∧ (r.1, x) = v) records values) :
    values.map (·.1) = records.map (·.1) ∧
      values.mapM (fun v => do return (v.1, ← write v.1 v.2)) = .ok (records.map fun r => (r.1, again r.2)) := by
  rw [mapM_eq_ok]
  induction hread with
  | nil => exact ⟨rfl, .nil⟩
  | cons hv _ ih =>
    obtain ⟨hr, hrest⟩ := List.forall_mem_cons.1 hP
    obtain ⟨hkeys, hvalues⟩ := ih hrest
    obtain ⟨x, hx, rfl⟩ := hv
    refine ⟨by simp [hkeys], .cons ?_ hvalues⟩
    simp [h.back hr hx]

theorem extra (h : Rewriting P read write again) {fs : Fields} {x : Extra E} (hP : (Tree.object fs).All P)
    (hx : Extra.ofWire read fs = .ok x) :
    ∃ y, x.traverse write = .ok y ∧ Extra.layout y = (fs.lookup "extra").bind (Extra.rule again) := by
  unfold Extra.ofWire at hx
  cases hw : fs.lookup "extra" with
  | none =>
    rw [hw] at hx
    obtain rfl := Except.ok.inj hx
    exact ⟨∅, rfl, rfl⟩
  | some w =>
    simp only [hw, bind_eq_ok, Tree.fieldsOf_eq_ok, mapM_eq_ok, pure_eq_ok, Except.ok.injEq] at hx
    obtain ⟨records, rfl, values, hvalues, rfl⟩ := hx
    have hrecords := (h.fields hP).2 hw
    have hasc := (h.fields hrecords).1
    obtain ⟨hkeys, hwrite⟩ := h.records (Tree.all_object.1 hrecords).2 hvalues
    have hentries := Dict.entries_ofList (hasc.of_keys hkeys)
    refine ⟨Dict.ofList (records.map fun r => (r.1, again r.2)), ?_, ?_⟩
    · rw [Dict.traverse, hentries, hwrite]
      rfl
    · rw [Extra.layout, Dict.isEmpty, Dict.entries_ofList (hasc.map fun r => again r.2)]
      cases records <;> rfl

end Rewriting

section
variable {E : Type} {P : Tree → Prop} {read : String → Tree → Except Malformed E}
  {write : String → E → Except Unwritable Tree} {again : Tree → Tree} (h : Rewriting P read write again)
include h

theorem Media.returns {fs : Fields} (hP : (Tree.object fs).All P) {m : Media E} (hm : Media.ofWire read fs = .ok m)
    {type : PartType} (htype : fs.lookup "type" = some (.text type.name)) (detail name : Rule) :
    ∃ n, m.traverse write = .ok n ∧
      n.layout type ((fs.lookup "detail").bind detail) ((fs.lookup "name").bind name) =
        Tree.prune (rules (Extra.rule again) detail name) (.object fs) := by
  simp only [ofWire, bind_eq_ok, Fields.text?_eq_ok, Fields.text_eq_ok, pure_eq_ok, Except.ok.injEq] at hm
  obtain ⟨url, hurl, data, hdata, mime, hmime, extra, hextra, rfl⟩ := hm
  obtain ⟨y, hy, hl⟩ := h.extra hP hextra
  refine ⟨{ url, base64Data := data, mimeType := mime, extra := y }, by simp [traverse, hy], ?_⟩
  rw [rules, h.pruned hP (by simp +decide only [ascending_cons_cons, ascending_singleton])]
  simp [layout, hl, hurl, hdata, hmime, htype]

/-- A medium without a field of its own. -/
theorem Media.returns_bare {fs : Fields} (hP : (Tree.object fs).All P) {m : Media E}
    (hm : Media.ofWire read fs = .ok m) {type : PartType} (htype : fs.lookup "type" = some (.text type.name)) :
    ∃ n, m.traverse write = .ok n ∧
      n.layout type none none = Tree.prune (rules (Extra.rule again) drop drop) (.object fs) := by
  simpa only [Tree.bind_drop] using Media.returns h hP hm htype drop drop

omit h in
theorem ImageDetail.returns {fs : Fields} {d : ImageDetail} (hd : ofWire fs = .ok d) :
    d.layout = (fs.lookup "detail").bind rule := by
  unfold ofWire Fields.has at hd
  cases hw : fs.lookup "detail" with
  | none =>
    simp only [hw, Option.isSome_none, Bool.false_eq_true, if_false, Except.ok.injEq] at hd
    rw [← hd]
    rfl
  | some w =>
    simp only [hw, Option.isSome_some, if_true, Fields.tag_eq_ok, Option.some.injEq] at hd
    subst hd
    cases d <;> rfl

theorem InputPart.returns : Returns P (ofWire read) (·.traverse write) layout
    (prune (Extra.rule again) ImageDetail.rule) := by
  intro w p hP hp
  simp only [ofWire, bind_eq_ok, Tree.fieldsOf_eq_ok, Fields.tag_eq_ok] at hp
  obtain ⟨fs, rfl, type, htype, hp⟩ := hp
  have hrules : PartType.ofWire? (.object fs) = some type := by
    simp [PartType.ofWire?, Tree.textAt?, htype, Named.parse?_name]
  rw [prune, hrules]
  cases type with
  | text =>
    simp only [map_eq_ok, Fields.text_eq_ok] at hp
    obtain ⟨s, hs, rfl⟩ := hp
    refine ⟨.text s, rfl, ?_⟩
    rw [rules, h.pruned hP (by simp +decide only [ascending_cons_cons, ascending_singleton])]
    simp only [List.map_cons, List.map_nil, hs, htype]
    rfl
  | image =>
    simp only [bind_eq_ok, pure_eq_ok, Except.ok.injEq] at hp
    obtain ⟨m, hm, d, hd, rfl⟩ := hp
    obtain ⟨n, hn, hl⟩ := Media.returns h hP hm htype ImageDetail.rule drop
    refine ⟨.image n d, by simp [traverse, hn], ?_⟩
    rw [rules, ← hl, layout, ImageDetail.returns hd, Tree.bind_drop]
  | audio =>
    obtain ⟨m, hm, rfl⟩ := map_eq_ok.1 hp
    obtain ⟨n, hn, hl⟩ := Media.returns_bare h hP hm htype
    exact ⟨.audio n, by simp [traverse, hn], hl⟩
  | video =>
    obtain ⟨m, hm, rfl⟩ := map_eq_ok.1 hp
    obtain ⟨n, hn, hl⟩ := Media.returns_bare h hP hm htype
    exact ⟨.video n, by simp [traverse, hn], hl⟩
  | file =>
    simp only [bind_eq_ok, pure_eq_ok, Except.ok.injEq, Fields.text?_eq_ok] at hp
    obtain ⟨m, hm, name, hname, rfl⟩ := hp
    obtain ⟨n, hn, hl⟩ := Media.returns h hP hm htype drop some
    refine ⟨.file n name, by simp [traverse, hn], ?_⟩
    rw [rules, ← hl, layout, hname, Tree.bind_drop, Option.bind_fun_some]

theorem OutputPart.returns : Returns P (ofWire read) (·.traverse write) layout (prune (Extra.rule again)) := by
  intro w p hP hp
  simp only [ofWire, bind_eq_ok, Tree.fieldsOf_eq_ok, Fields.tag_eq_ok] at hp
  obtain ⟨fs, rfl, type, htype, hp⟩ := hp
  have hrules : PartType.ofWire? (.object fs) = some type := by
    simp [PartType.ofWire?, Tree.textAt?, htype, Named.parse?_name]
  rw [prune, hrules]
  cases type with
  | text =>
    simp only [bind_eq_ok, pure_eq_ok, Except.ok.injEq, Fields.text_eq_ok] at hp
    obtain ⟨s, hs, x, hx, rfl⟩ := hp
    obtain ⟨y, hy, hl⟩ := h.extra hP hx
    refine ⟨.text s y, by simp [traverse, hy], ?_⟩
    rw [rules, h.pruned hP (by simp +decide only [ascending_cons_cons, ascending_singleton]), layout]
    simp only [List.map_cons, List.map_nil, hs, htype, hl]
    rfl
  | image =>
    obtain ⟨m, hm, rfl⟩ := map_eq_ok.1 hp
    obtain ⟨n, hn, hl⟩ := Media.returns_bare h hP hm htype
    exact ⟨.image n, by simp [traverse, hn], hl⟩
  | audio =>
    obtain ⟨m, hm, rfl⟩ := map_eq_ok.1 hp
    obtain ⟨n, hn, hl⟩ := Media.returns_bare h hP hm htype
    exact ⟨.audio n, by simp [traverse, hn], hl⟩
  | video =>
    obtain ⟨m, hm, rfl⟩ := map_eq_ok.1 hp
    obtain ⟨n, hn, hl⟩ := Media.returns_bare h hP hm htype
    exact ⟨.video n, by simp [traverse, hn], hl⟩
  | file => cases hp

theorem Message.returns : Returns P (ofWire read) (·.traverse write) layout
    (prune (Extra.rule again) ImageDetail.rule) := by
  intro w m hP hm
  simp only [ofWire, bind_eq_ok, Tree.fieldsOf_eq_ok, Fields.tag_eq_ok, Fields.index?_eq_ok, pure_eq_ok,
    Except.ok.injEq] at hm
  obtain ⟨fs, rfl, role, hrole, index, hindex, content, hcontent, x, hx, rfl⟩ := hm
  obtain ⟨y, hy, hl⟩ := h.extra hP hx
  have field {key : String} {t : Tree} (ht : fs.lookup key = some t) : t.All P := (h.fields hP).2 ht
  rw [prune, h.pruned hP (by simp +decide only [ascending_cons_cons, ascending_singleton])]
  unfold contentOfWire at hcontent
  split at hcontent
  · rename_i ht hi ho
    simp only [map_eq_ok, Fields.text_eq_ok] at hcontent
    obtain ⟨s, hs, rfl⟩ := hcontent
    refine ⟨⟨index, role, .text s, y⟩, by simp [traverse, Content.traverse, hy], ?_⟩
    simp only [List.map_cons, List.map_nil, ← hl, hindex, hs, hi, ho, hrole, Option.bind_fun_some]
    rfl
  · rename_i t ht hi ho
    simp only [bind_eq_ok, Tree.itemsOf_eq_ok, pure_eq_ok, Except.ok.injEq] at hcontent
    obtain ⟨items, rfl, ps, hps, rfl⟩ := hcontent
    obtain ⟨qs, hqs, hls⟩ := (InputPart.returns h).items (field hi) hps
    refine ⟨⟨index, role, .input qs, y⟩, by simp [traverse, Content.traverse, hy, hqs], ?_⟩
    simp only [List.map_cons, List.map_nil, ← hl, hindex, ht, hi, ho, hrole, Option.bind_fun_some, Option.bind_some,
      change, mapItems, ← hls]
    rfl
  · rename_i t ht hi ho
    simp only [bind_eq_ok, Tree.itemsOf_eq_ok, pure_eq_ok, Except.ok.injEq] at hcontent
    obtain ⟨items, rfl, ps, hps, rfl⟩ := hcontent
    obtain ⟨qs, hqs, hls⟩ := (OutputPart.returns h).items (field ho) hps
    refine ⟨⟨index, role, .output qs, y⟩, by simp [traverse, Content.traverse, hy, hqs], ?_⟩
    simp only [List.map_cons, List.map_nil, ← hl, hindex, ht, hi, ho, hrole, Option.bind_fun_some, Option.bind_some,
      change, mapItems, ← hls]
    rfl
  · cases hcontent

theorem SummaryFragment.returns : Returns P (ofWire read) (·.traverse write) layout (prune (Extra.rule again)) := by
  intro w f hP hf
  simp only [ofWire, bind_eq_ok, Tree.fieldsOf_eq_ok, Fields.text_eq_ok, pure_eq_ok, Except.ok.injEq] at hf
  obtain ⟨fs, rfl, s, hs, x, hx, rfl⟩ := hf
  obtain ⟨y, hy, hl⟩ := h.extra hP hx
  refine ⟨⟨s, y⟩, by simp [traverse, hy], ?_⟩
  rw [prune, h.pruned hP (by simp +decide only [ascending_cons_cons, ascending_singleton])]
  simp only [List.map_cons, List.map_nil, ← hl, hs]
  rfl

theorem Reasoning.returns : Returns P (ofWire read) (·.traverse write) layout (prune (Extra.rule again)) := by
  intro w r hP hr
  simp only [ofWire, bind_eq_ok, Tree.fieldsOf_eq_ok, Fields.index?_eq_ok, Fields.array_eq_ok, Fields.text_eq_ok,
    pure_eq_ok, Except.ok.injEq] at hr
  obtain ⟨fs, rfl, index, hindex, summaryIndex, hsummaryIndex, items, hitems, summary, hsummary, s, hs, x, hx, rfl⟩ := hr
  obtain ⟨fragments, hfragments, hls⟩ := (SummaryFragment.returns h).items ((h.fields hP).2 hitems) hsummary
  obtain ⟨y, hy, hl⟩ := h.extra hP hx
  refine ⟨⟨index, summaryIndex, fragments, s, y⟩, by simp [traverse, hfragments, hy], ?_⟩
  rw [prune, h.pruned hP (by simp +decide only [ascending_cons_cons, ascending_singleton])]
  simp only [List.map_cons, List.map_nil, ← hl, hindex, hsummaryIndex, hitems, hs, Option.bind_fun_some,
    Option.bind_some, change, mapItems, ← hls]
  rfl

theorem ToolCall.returns : Returns P (ofWire read) (·.traverse write) layout (prune (Extra.rule again)) := by
  intro w c hP hc
  simp only [ofWire, bind_eq_ok, Tree.fieldsOf_eq_ok, Fields.index?_eq_ok, Fields.tag_eq_ok, Fields.text_eq_ok,
    pure_eq_ok, Except.ok.injEq] at hc
  obtain ⟨fs, rfl, index, hindex, type, htype, id, hid, name, hname, args, hargs, x, hx, rfl⟩ := hc
  obtain ⟨y, hy, hl⟩ := h.extra hP hx
  refine ⟨⟨index, type, id, name, args, y⟩, by simp [traverse, hy], ?_⟩
  rw [prune, h.pruned hP (by simp +decide only [ascending_cons_cons, ascending_singleton])]
  simp only [List.map_cons, List.map_nil, ← hl, hindex, htype, hid, hname, hargs, Option.bind_fun_some]
  rfl

theorem McpResult.returns : Returns P (ofWire read) (·.traverse write) layout (prune (Extra.rule again)) := by
  intro w r hP hr
  simp only [ofWire, bind_eq_ok, Tree.fieldsOf_eq_ok, Fields.tag_eq_ok, Fields.text_eq_ok, pure_eq_ok,
    Except.ok.injEq] at hr
  obtain ⟨fs, rfl, content, hcontent, request, hrequest, status, hstatus, error, herror, x, hx, rfl⟩ := hr
  obtain ⟨y, hy, hl⟩ := h.extra hP hx
  refine ⟨⟨content, request, status, error, y⟩, by simp [traverse, hy], ?_⟩
  rw [prune, h.pruned hP (by simp +decide only [ascending_cons_cons, ascending_singleton])]
  simp only [List.map_cons, List.map_nil, ← hl, hcontent, hrequest, hstatus, herror]
  rfl

theorem ToolCallOutput.returns : Returns P (ofWire read) (·.traverse write) layout (prune (Extra.rule again)) := by
  intro w o hP ho
  simp only [ofWire, bind_eq_ok, Tree.fieldsOf_eq_ok, Fields.index?_eq_ok, Fields.tag_eq_ok, Fields.text_eq_ok,
    pure_eq_ok, Except.ok.injEq] at ho
  obtain ⟨fs, rfl, index, hindex, type, htype, callId, hcall, tool, htool, output, houtput, rfl⟩ := ho
  rw [prune, h.pruned hP (by simp +decide only [ascending_cons_cons, ascending_singleton])]
  unfold outputOfWire at houtput
  split at houtput
  · rename_i hc hm
    cases houtput
    refine ⟨⟨index, type, callId, tool, none⟩, rfl, ?_⟩
    simp only [List.map_cons, List.map_nil, hindex, htype, hcall, htool, hc, hm, Option.bind_fun_some]
    rfl
  · rename_i w hc hm
    simp only [bind_eq_ok, Tree.fieldsOf_eq_ok, Fields.text_eq_ok, pure_eq_ok, Except.ok.injEq] at houtput
    obtain ⟨custom, rfl, s, hs, rfl⟩ := houtput
    have hcustom := (h.fields hP).2 hc
    refine ⟨⟨index, type, callId, tool, some (.custom s)⟩, rfl, ?_⟩
    simp only [List.map_cons, List.map_nil, hindex, htype, hcall, htool, hc, hm, Option.bind_fun_some, Option.bind_some,
      change, h.pruned hcustom (ascending_singleton _), hs]
    rfl
  · rename_i w hc hm
    obtain ⟨r, hr, rfl⟩ := map_eq_ok.1 houtput
    obtain ⟨s, hs, hls⟩ := McpResult.returns h _ _ ((h.fields hP).2 hm) hr
    refine ⟨⟨index, type, callId, tool, some (.mcp s)⟩, by simp [traverse, ToolOutput.traverse, hs], ?_⟩
    simp only [List.map_cons, List.map_nil, hindex, htype, hcall, htool, hc, hm, Option.bind_fun_some, Option.bind_some,
      change, ← hls]
    rfl
  · cases houtput

theorem ToolListing.returns : Returns P ofWire .ok layout prune := by
  intro w l hP hl
  simp only [ofWire, bind_eq_ok, Tree.fieldsOf_eq_ok, Fields.text_eq_ok, pure_eq_ok, Except.ok.injEq] at hl
  obtain ⟨fs, rfl, name, hname, description, hdescription, rfl⟩ := hl
  refine ⟨_, rfl, ?_⟩
  rw [prune, h.pruned hP (by simp +decide only [ascending_cons_cons, ascending_singleton])]
  simp only [List.map_cons, List.map_nil, hname, hdescription, Option.bind_fun_some]
  rfl

theorem McpListTools.returns : Returns P ofWire .ok layout prune := by
  intro w l hP hl
  simp only [ofWire, bind_eq_ok, Tree.fieldsOf_eq_ok, Fields.array_eq_ok, Fields.text_eq_ok, pure_eq_ok,
    Except.ok.injEq] at hl
  obtain ⟨fs, rfl, label, hlabel, items, hitems, tools, htools, error, herror, rfl⟩ := hl
  obtain ⟨same, hsame, hls⟩ := (ToolListing.returns h).items ((h.fields hP).2 hitems) htools
  rw [mapM_ok] at hsame
  cases hsame
  refine ⟨_, rfl, ?_⟩
  rw [prune, h.pruned hP (by simp +decide only [ascending_cons_cons, ascending_singleton])]
  simp only [List.map_cons, List.map_nil, hlabel, hitems, herror, Option.bind_some, change, mapItems, ← hls]
  rfl

theorem ApprovalRequest.returns : Returns P ofWire .ok layout prune := by
  intro w q hP hq
  simp only [ofWire, bind_eq_ok, Tree.fieldsOf_eq_ok, Fields.text_eq_ok, pure_eq_ok, Except.ok.injEq] at hq
  obtain ⟨fs, rfl, name, hname, args, hargs, label, hlabel, rfl⟩ := hq
  refine ⟨_, rfl, ?_⟩
  rw [prune, h.pruned hP (by simp +decide only [ascending_cons_cons, ascending_singleton])]
  simp only [List.map_cons, List.map_nil, hname, hargs, hlabel]
  rfl

theorem ApprovalResponse.returns : Returns P ofWire .ok layout prune := by
  intro w a hP ha
  simp only [ofWire, bind_eq_ok, Tree.fieldsOf_eq_ok, Fields.text_eq_ok, Fields.bool_eq_ok, pure_eq_ok,
    Except.ok.injEq] at ha
  obtain ⟨fs, rfl, id, hid, approve, happrove, reason, hreason, rfl⟩ := ha
  refine ⟨_, rfl, ?_⟩
  rw [prune, h.pruned hP (by simp +decide only [ascending_cons_cons, ascending_singleton])]
  simp only [List.map_cons, List.map_nil, hid, happrove, hreason]
  rfl

/-- A payload comes back with the type that it was read as. -/
theorem Payload.returns {held : BlockType} {w : Tree} {p : Payload E} (hP : w.All P) (hp : ofWire read held w = .ok p) :
    ∃ q, p.traverse write = .ok q ∧ q.type = held ∧ q.layout = prune (Extra.rule again) ImageDetail.rule held w := by
  cases held with
  | message =>
    obtain ⟨m, hm, rfl⟩ := map_eq_ok.1 hp
    obtain ⟨n, hn, hl⟩ := Message.returns h _ _ hP hm
    exact ⟨.message n, by simp [traverse, hn], rfl, hl⟩
  | reasoning =>
    obtain ⟨m, hm, rfl⟩ := map_eq_ok.1 hp
    obtain ⟨n, hn, hl⟩ := Reasoning.returns h _ _ hP hm
    exact ⟨.reasoning n, by simp [traverse, hn], rfl, hl⟩
  | toolCall =>
    obtain ⟨m, hm, rfl⟩ := map_eq_ok.1 hp
    obtain ⟨n, hn, hl⟩ := ToolCall.returns h _ _ hP hm
    exact ⟨.toolCall n, by simp [traverse, hn], rfl, hl⟩
  | toolCallOutput =>
    obtain ⟨m, hm, rfl⟩ := map_eq_ok.1 hp
    obtain ⟨n, hn, hl⟩ := ToolCallOutput.returns h _ _ hP hm
    exact ⟨.toolCallOutput n, by simp [traverse, hn], rfl, hl⟩
  | mcpListTools =>
    obtain ⟨l, hl, rfl⟩ := map_eq_ok.1 hp
    obtain ⟨_, ⟨⟩, hlayout⟩ := McpListTools.returns h _ _ hP hl
    exact ⟨.mcpListTools l, rfl, rfl, hlayout⟩
  | mcpToolApprovalRequest =>
    obtain ⟨q, hq, rfl⟩ := map_eq_ok.1 hp
    obtain ⟨_, ⟨⟩, hlayout⟩ := ApprovalRequest.returns h _ _ hP hq
    exact ⟨.mcpToolApprovalRequest q, rfl, rfl, hlayout⟩
  | mcpToolApprovalResponse =>
    obtain ⟨a, ha, rfl⟩ := map_eq_ok.1 hp
    obtain ⟨_, ⟨⟩, hlayout⟩ := ApprovalResponse.returns h _ _ hP ha
    exact ⟨.mcpToolApprovalResponse a, rfl, rfl, hlayout⟩

theorem Block.returns : Returns P (ofWire read) (·.traverse write) layout
    (prune (Extra.rule again) ImageDetail.rule) := by
  intro w b hP hb
  simp only [ofWire, bind_eq_ok, Tree.fieldsOf_eq_ok, Fields.tag_eq_ok] at hb
  obtain ⟨fs, rfl, type, htype, hb⟩ := hb
  have order : Ascending (rules (Extra.rule again) ImageDetail.rule) := by
    simp +decide only [rules, BlockType.byName, BlockType.name, List.map_cons, List.map_nil, List.cons_append,
      List.nil_append, ascending_cons_cons, ascending_singleton]
  rw [prune, h.pruned hP order, rules]
  simp only [List.map_append, List.map_map, Function.comp_def, List.map_cons, List.map_nil, htype]
  split at hb
  · rename_i hnone
    have absent (held : BlockType) : fs.lookup held.name = none := by
      rw [Option.eq_none_iff_forall_ne_some]
      intro w hw
      simpa [hnone] using mem_payloadFields.2 hw
    cases hb
    refine ⟨⟨type, none⟩, rfl, ?_⟩
    simp only [absent]
    rfl
  · rename_i held w hone
    have hw : fs.lookup held.name = some w := mem_payloadFields.1 (by simp [hone])
    have single (t : BlockType) : fs.lookup t.name = if t = held then some w else none := by
      split
      · rename_i ht
        rw [ht, hw]
      · rename_i ht
        rw [Option.eq_none_iff_forall_ne_some]
        intro u hu
        have hmem := mem_payloadFields.2 hu
        simp [hone, ht] at hmem
    simp only [bind_eq_ok, pure_eq_ok, Except.ok.injEq] at hb
    obtain ⟨p, hp, rfl⟩ := hb
    obtain ⟨q, hq, hqt, hl⟩ := Payload.returns h ((h.fields hP).2 hw) hp
    refine ⟨⟨type, some q⟩, by simp [traverse, hq], ?_⟩
    simp only [single, layout, hqt, hl]
    cases held <;> rfl
  · cases hb

theorem Finish.returns : Returns P ofWire .ok layout prune := by
  intro w f hP hf
  simp only [ofWire, bind_eq_ok, Tree.fieldsOf_eq_ok, Fields.tag_eq_ok, Fields.text_eq_ok, pure_eq_ok,
    Except.ok.injEq] at hf
  obtain ⟨fs, rfl, status, hstatus, reason, hreason, rfl⟩ := hf
  refine ⟨_, rfl, ?_⟩
  rw [prune, h.pruned hP (by simp +decide only [ascending_cons_cons, ascending_singleton])]
  simp only [List.map_cons, List.map_nil, hstatus, hreason]
  rfl

theorem Usage.returns : Returns P ofWire .ok layout prune := by
  intro w u hP hu
  simp only [ofWire, bind_eq_ok, Tree.fieldsOf_eq_ok, Fields.count_eq_ok, Fields.object_eq_ok, pure_eq_ok,
    Except.ok.injEq] at hu
  obtain ⟨fs, rfl, input, hinput, ifs, hifs, cached, hcached, output, houtput, ofs, hofs, reasoning, hreasoning, total,
    htotal, rfl⟩ := hu
  have hi := (h.fields hP).2 hifs
  have ho := (h.fields hP).2 hofs
  refine ⟨_, rfl, ?_⟩
  rw [prune, h.pruned hP (by simp +decide only [ascending_cons_cons, ascending_singleton])]
  simp only [List.map_cons, List.map_nil, hinput, hifs, houtput, hofs, htotal, Option.bind_some, change,
    h.pruned hi (ascending_singleton _), h.pruned ho (ascending_singleton _), hcached, hreasoning]
  rfl

theorem Response.returns : Returns P (readWire read) (·.traverse write) layout
    (prune (Extra.rule again) ImageDetail.rule) := by
  intro w r hP hr
  simp only [readWire, bind_eq_ok, Tree.fieldsOf_eq_ok, Fields.text_eq_ok, Fields.array_eq_ok, pure_eq_ok,
    Except.ok.injEq] at hr
  obtain ⟨fs, rfl, id, hid, finish, hfinish, usage, husage, items, hitems, blocks, hblocks, rfl⟩ := hr
  obtain ⟨bs, hbs, hls⟩ := (Block.returns h).items ((h.fields hP).2 hitems) hblocks
  have finish_back := (Finish.returns h).optional (fun _ ht => (h.fields hP).2 ht) hfinish
  have usage_back := (Usage.returns h).optional (fun _ ht => (h.fields hP).2 ht) husage
  refine ⟨⟨id, finish, usage, bs⟩, by simp [traverse, hbs], ?_⟩
  rw [prune, h.pruned hP (by simp +decide only [ascending_cons_cons, ascending_singleton])]
  simp only [List.map_cons, List.map_nil, hid, hitems, Option.bind_some, ← finish_back, ← usage_back]
  simp only [change, mapItems, ← hls]
  rfl

end

variable {F : TypeFamily}

/-- The payload of a record under a type id, decoded and encoded again unless it is plain. -/
def Extension.recode (R : Registry F) (id : String) (p : Tree) : Tree :=
  if id = plainId then p
  else
    match R.byId? id with
    | none => p
    | some ⟨_, b⟩ =>
      match b.decode p >>= b.encode with
      | .ok q => q
      | .error _ => p

/-- A record with its payload recoded, and without other keys. -/
def Extension.again (R : Registry F) (w : Tree) : Tree :=
  match w.textAt? "t" with
  | some id => w.prune [("p", change (recode R id)), ("t", some)]
  | none => w

/-- The wire tree that says the same as `w` and nothing that is not read. -/
def Response.canonical (R : Registry F) (w : Tree) : Tree :=
  prune (Extra.rule (Extension.again R)) ImageDetail.rule w

/-- Encoders encode whatever their decoders return. -/
def Registry.Recoding (R : Registry F) : Prop :=
  ∀ c ∈ R.bindings, ∀ p v, c.2.decode p = .ok v → ∃ q, c.2.encode v = .ok q

theorem Extension.toWire_of_ofWire {R : Registry F} (hR : R.Sound) (hE : R.Recoding) {key : String} {w : Tree}
    {x : Extension F} (hc : w.Clean) (ho : w.Ordered) (h : ofWire R key w = .ok x) :
    x.toWire R key = .ok (again R w) := by
  obtain ⟨fs, id, p, rfl, hid, hp, hx⟩ := ofWire_eq_ok.1 h
  have hagain (q : Tree) (hq : recode R id p = q) : again R (.object fs) = record id q := by
    have htext : (Tree.object fs).textAt? "t" = some id := by simp [Tree.textAt?, hid]
    rw [again, htext]
    simp only
    rw [prune_object (by simp +decide only [ascending_cons_cons, ascending_singleton]) (ho.self fs rfl)]
    simp only [List.map_cons, List.map_nil, hid, hp, Option.bind_some, change, hq]
    rfl
  rcases resolve_cases hx with ⟨rfl, rfl⟩ | ⟨k, b, v, hb, hv, rfl⟩
  · rw [hagain p (by simp [recode]), toWire_plain]
    exact ⟨((Tree.all_object.1 hc).2 _ (mem_of_lookup hp)).self, rfl⟩
  · obtain ⟨htype, rfl⟩ := hR.byType?_of_byId? hb
    obtain ⟨q, (hq : b.encode v = .ok q)⟩ := hE _ (Registry.mem_of_byType? htype) p v hv
    have hrecode : recode R b.id p = q := by
      rw [recode, if_neg (hR.unreserved _ (Registry.mem_of_byType? htype)), hb]
      simp only [hv, ok_bind, hq]
    rw [hagain q hrecode, toWire_typed]
    exact ⟨b, q, htype, hq, rfl⟩

/-- Writing what was read gives the canonical form of the tree: fields that no reader looks
up are gone, and so are empty metadata and unspecified details; each typed payload is what
its encoder makes of what its decoder read; all else is as it was. -/
theorem Response.toWire_ofWire {R : Registry F} (hR : R.Reachable) (hE : R.Recoding) {w : Tree} (hc : w.Clean)
    (ho : w.Ordered) {r : Response (Extension F)} (h : ofWire R w = .ok r) : r.toWire R = .ok (canonical R w) := by
  have values : Rewriting (fun n => n ≠ .discarded ∧ ∀ fs, n = .object fs → Ascending fs) (Extension.ofWire R)
      (Extension.toWire R) (Extension.again R) := by
    refine ⟨fun hP => hP.2 _ rfl, fun {key w x} (hw : w.Kept) hx => ?_⟩
    exact Extension.toWire_of_ofWire hR.sound hE hw.clean hw.ordered hx
  obtain ⟨s, hs, hl⟩ := Response.returns values w r (hc.and ho) h
  rw [toWire, show r.traverse (Extension.toWire R) = .ok s from hs, map_ok, hl, canonical]

theorem Registry.truth_recoding : truth.Recoding := by
  intro c hc p v _
  obtain rfl := List.mem_singleton.1 hc
  exact ⟨.bool v, rfl⟩

/-- A turn with a tool call, where a record and the turn have a key that no reader looks up. -/
def Tree.loose : Tree :=
  .object [
    ("blocks", .array [.object [
      ("tool_call", .object [
        ("arguments", .text ""),
        ("extra", .object [("seen", .object [("p", .bool true), ("t", .text "vendor.Truth"), ("unread", .null)])]),
        ("id", .text "call"),
        ("name", .text "f"),
        ("type", .text "custom_tool_call")]),
      ("type", .text "message")]]),
    ("id", .text "turn"),
    ("unread", .null)]

theorem Response.toWire_ofWire_loose :
    ∃ r, ofWire .truth Tree.loose = .ok r ∧ r.toWire .truth = .ok (canonical .truth Tree.loose) := by
  have kept : Tree.loose.Kept := by
    simp +decide only [Tree.loose, Tree.kept_object, Tree.kept_array, Tree.kept_null, Tree.kept_bool, Tree.kept_text,
      List.forall_mem_cons, List.not_mem_nil, false_implies, implies_true, and_self, ascending_cons_cons,
      ascending_singleton]
  exact ⟨_, rfl, toWire_ofWire Registry.truth_reachable Registry.truth_recoding kept.clean kept.ordered rfl⟩

end TurnCodec
