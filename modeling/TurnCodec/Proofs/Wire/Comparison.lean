import TurnCodec.Proofs.Codec
import TurnCodec.Proofs.Comparison
/-! Layouts compare as what is laid out, and wire trees as the responses that they are of: every
field that counts for equality is laid out, and none that does not. -/

namespace TurnCodec

/-- Images compare as what they are of. -/
def Discerns {α β : Type} [BEq α] [BEq β] (f : α → β) : Prop := ∀ a b, (f a == f b) = (a == b)

namespace Discerns

variable {α β γ : Type} [BEq α] [BEq β] [BEq γ] {f : α → β} {g : β → γ}

theorem comp (hg : Discerns g) (hf : Discerns f) : Discerns (g ∘ f) := fun a b => (hg (f a) (f b)).trans (hf a b)

theorem option (h : Discerns f) (a b : Option α) : (a.map f == b.map f) = (a == b) :=
  beq_map_option fun x _ y _ => h x y

theorem list (h : Discerns f) (as bs : List α) : (as.map f == bs.map f) = (as == bs) :=
  beq_map_list fun a _ b _ => h a b

theorem of_injective {α β : Type} [DecidableEq α] [DecidableEq β] {f : α → β} (h : ∀ a b, f a = f b → a = b) :
    Discerns f := fun _ _ => Function.Injective.beq_eq h

end Discerns

namespace Tree

theorem discerns_text : Discerns text := fun _ _ => rfl

theorem discerns_int : Discerns int := fun _ _ => rfl

theorem beqItems_eq (xs ys : List Tree) : beqItems xs ys = (xs == ys) := by
  induction xs generalizing ys with
  | nil => cases ys <;> rfl
  | cons x xs ih =>
    cases ys with
    | nil => rfl
    | cons y ys =>
      rw [beqItems, ih]
      rfl

theorem array_beq (xs ys : List Tree) : (array xs == array ys) = (xs == ys) := by
  change beq (array xs) (array ys) = _
  rw [beq, beqItems_eq]

theorem beqFields_eq (fs gs : List (String × Tree)) : beqFields fs gs = (fs == gs) := by
  induction fs generalizing gs with
  | nil => cases gs <;> rfl
  | cons f fs ih =>
    cases gs with
    | nil => rfl
    | cons g gs =>
      rw [beqFields, ih]
      rfl

theorem object_beq (fs gs : List (String × Tree)) : (object fs == object gs) = (fs == gs) := by
  change beq (object fs) (object gs) = _
  rw [beq, beqFields_eq]

theorem entry_beq (key : String) (t u : Tree) : ((key, t) == (key, u)) = (t == u) := by
  change (key == key && t == u) = (t == u)
  rw [beq_self_eq_true, Bool.true_and]

theorem beq_of_keys {f : String × Tree} {fs gs : List (String × Tree)} (h : ∀ g ∈ gs, f.1 ≠ g.1) :
    (f :: fs == gs) = false ∧ (gs == f :: fs) = false := by
  cases gs with
  | nil => exact ⟨rfl, rfl⟩
  | cons g gs =>
    have hne : f.1 ≠ g.1 := h g List.mem_cons_self
    rw [List.cons_beq_cons, List.cons_beq_cons]
    change (f.1 == g.1 && f.2 == g.2 && fs == gs) = false ∧ (g.1 == f.1 && g.2 == f.2 && gs == fs) = false
    rw [beq_false_of_ne hne, beq_false_of_ne hne.symm]
    exact ⟨rfl, rfl⟩

/-- Records under the same keys compare field by field, an absent field being equal to none that is present. -/
theorem record_beq {fs gs : List (String × Option Tree)} (keys : fs.map (·.1) = gs.map (·.1))
    (nodup : (fs.map (·.1)).Nodup) : (record fs == record gs) = (fs.map (·.2) == gs.map (·.2)) := by
  rw [record_eq, record_eq, object_beq]
  induction fs generalizing gs with
  | nil =>
    cases gs with
    | nil => rfl
    | cons g gs => cases keys
  | cons f fs ih =>
    cases gs with
    | nil => cases keys
    | cons g gs =>
      obtain ⟨k, a⟩ := f
      obtain ⟨j, b⟩ := g
      obtain ⟨hkey, hkeys⟩ := List.cons.inj keys
      obtain rfl : k = j := hkey
      obtain ⟨fresh, hfs⟩ := List.nodup_cons.1 nodup
      have apart {es : List (String × Option Tree)} (hes : k ∉ es.map (·.1)) : ∀ e ∈ present es, k ≠ e.1 := by
        rintro e he rfl
        exact hes (List.mem_map_of_mem (mem_present.1 he))
      rw [List.map_cons, List.map_cons, List.cons_beq_cons, ← ih hkeys hfs]
      rcases a with _ | x <;> rcases b with _ | y
      · rfl
      · have other : k ∉ fs.map (·.1) := fresh
        exact (beq_of_keys (apart other)).2
      · have other : k ∉ gs.map (·.1) := hkeys ▸ fresh
        exact (beq_of_keys (apart other)).1
      · change (k == k && x == y && present fs == present gs) = (x == y && present fs == present gs)
        rw [beq_self_eq_true, Bool.true_and]

end Tree

theorem Named.discerns_name {α : Type} [Named α] [DecidableEq α] : Discerns (name : α → String) :=
  .of_injective name_injective

namespace Tree

theorem discerns_ofInt32 : Discerns ofInt32 :=
  discerns_int.comp (.of_injective fun m n h => Option.some.inj (by
    rw [← Integer.toInt32?_ofInt32, h, Integer.toInt32?_ofInt32]))

theorem discerns_ofInt64 : Discerns ofInt64 :=
  discerns_int.comp (.of_injective fun m n h => Option.some.inj (by
    rw [← Integer.toInt64?_ofInt64, h, Integer.toInt64?_ofInt64]))

theorem discerns_array {α : Type} [BEq α] {f : α → Tree} (h : Discerns f) :
    Discerns fun as : List α => array (as.map f) :=
  fun as bs => (array_beq _ _).trans (h.list as bs)

theorem lookup_beq {fs gs : Fields} (h : (fs == gs) = true) (key : String) :
    (fs.lookup key == gs.lookup key) = true := by
  induction fs generalizing gs with
  | nil =>
    cases gs with
    | nil => rfl
    | cons g gs => cases h
  | cons f fs ih =>
    cases gs with
    | nil => cases h
    | cons g gs =>
      obtain ⟨hhead, htail⟩ := Bool.and_eq_true_iff.1 h
      obtain ⟨hkey, hvalue⟩ := Bool.and_eq_true_iff.1 (show (f.1 == g.1 && f.2 == g.2) = true from hhead)
      rw [lookup_cons_eq, lookup_cons_eq, ← eq_of_beq hkey]
      split
      · exact hvalue
      · exact ih htail

/-- Objects with different texts under a key are different. -/
theorem beq_of_texts {w u : Tree} {fs gs : Fields} {key a b : String} (hw : w = .object fs) (hu : u = .object gs)
    (hf : fs.lookup key = some (.text a)) (hg : gs.lookup key = some (.text b)) (hne : a ≠ b) : (w == u) = false := by
  rw [hw, hu, object_beq, Bool.eq_false_iff]
  intro h
  have same := lookup_beq h key
  rw [hf, hg] at same
  exact hne (eq_of_beq same)

end Tree

theorem Extra.discerns_layout : Discerns Extra.layout := by
  rintro ⟨es, hes⟩ ⟨ds, hds⟩
  rcases es with _ | ⟨e, es⟩ <;> rcases ds with _ | ⟨d, ds⟩
  · rfl
  · rfl
  · rfl
  · exact Tree.object_beq (e :: es) (d :: ds)

theorem Media.layout_beq (m n : Media Tree) (type : PartType) (d e c b : Option Tree) :
    (m.layout type d c == n.layout type e b) = (m == n && d == e && c == b) := by
  change (Tree.record _ == Tree.record _) = (m.url == n.url && m.base64Data == n.base64Data &&
    m.mimeType == n.mimeType && m.extra == n.extra && d == e && c == b)
  rw [Tree.record_beq]
  · simp only [List.map_cons, List.map_nil, List.cons_beq_cons, Option.some_beq_some, Tree.discerns_text.option,
      Tree.discerns_text _ _, Extra.discerns_layout _ _, beq_self_eq_true, Bool.true_and]
    -- fields are laid out by their keys, and compared in the order of declaration
    ac_rfl
  · rfl
  · simp

theorem Media.discerns_bare (type : PartType) : Discerns fun m : Media Tree => m.layout type none none := by
  intro m n
  rw [layout_beq, Option.none_beq_none, Bool.and_true, Bool.and_true]

/-- The object names the type under the key for it. -/
def PartType.Names (type : PartType) (w : Tree) : Prop :=
  ∃ fs, w = .object fs ∧ fs.lookup "type" = some (.text type.name)

theorem PartType.Names.beq {s t : PartType} {w u : Tree} (hw : s.Names w) (hu : t.Names u) (h : s ≠ t) :
    (w == u) = false := by
  obtain ⟨fs, hfs, hf⟩ := hw
  obtain ⟨gs, hgs, hg⟩ := hu
  exact Tree.beq_of_texts hfs hgs hf hg fun hname => h (Named.name_injective s t hname)

theorem Media.names_layout (m : Media Tree) (type : PartType) (detail name : Option Tree) :
    type.Names (m.layout type detail name) := by
  obtain ⟨fs, hfs, at_⟩ := Tree.of_record (show Tree.record _ = m.layout type detail name from rfl) (by simp)
  exact ⟨fs, hfs, at_ "type"⟩

theorem ImageDetail.discerns_layout : Discerns layout := by
  intro d e
  cases d <;> cases e <;> rfl

theorem InputPart.names_layout (p : InputPart Tree) : p.type.Names p.layout := by
  cases p with
  | text s => exact ⟨_, rfl, rfl⟩
  | image m d => exact m.names_layout .image d.layout none
  | audio m => exact m.names_layout .audio none none
  | video m => exact m.names_layout .video none none
  | file m name => exact m.names_layout .file none (name.map .text)

theorem InputPart.discerns_layout : Discerns InputPart.layout := by
  intro p q
  cases p <;> cases q
  case text.text s t =>
    rw [layout, layout, Tree.object_beq, List.cons_beq_cons, Tree.entry_beq]
    exact Bool.and_true _
  case image.image m d n e =>
    rw [layout, layout, Media.layout_beq, ImageDetail.discerns_layout]
    exact Bool.and_true _
  case audio.audio m n => exact Media.discerns_bare .audio m n
  case video.video m n => exact Media.discerns_bare .video m n
  case file.file m c n b =>
    rw [layout, layout, Media.layout_beq, Tree.discerns_text.option, Option.none_beq_none, Bool.and_true]
    rfl
  -- parts of different types are different, and name them
  all_goals exact (names_layout _).beq (names_layout _) (by simp [type])

theorem OutputPart.names_layout (p : OutputPart Tree) : p.type.Names p.layout := by
  cases p with
  | text s x =>
    obtain ⟨fs, hfs, at_⟩ := Tree.of_record (show Tree.record _ = (OutputPart.text s x).layout from rfl) (by simp)
    exact ⟨fs, hfs, at_ "type"⟩
  | image m => exact m.names_layout .image none none
  | audio m => exact m.names_layout .audio none none
  | video m => exact m.names_layout .video none none

theorem OutputPart.discerns_layout : Discerns OutputPart.layout := by
  intro p q
  cases p <;> cases q
  case text.text s x t y =>
    change (Tree.record _ == Tree.record _) = (s == t && x == y)
    rw [Tree.record_beq]
    · simp [Tree.discerns_text _ _, Extra.discerns_layout _ _]
    · rfl
    · simp
  case image.image m n => exact Media.discerns_bare .image m n
  case audio.audio m n => exact Media.discerns_bare .audio m n
  case video.video m n => exact Media.discerns_bare .video m n
  all_goals exact (names_layout _).beq (names_layout _) (by simp [type])

/-- The fields of a message for the three forms of its contents, of which one is present. -/
def Content.fields : Content Tree → Option Tree × Option Tree × Option Tree
  | text s => (none, some (.text s), none)
  | input ps => (some (.array (ps.map (·.layout))), none, none)
  | output ps => (none, none, some (.array (ps.map (·.layout))))

theorem Content.discerns_fields : Discerns Content.fields := by
  intro c d
  cases c <;> cases d
  case text.text s t => exact Bool.and_true _
  case input.input ps qs =>
    exact (Bool.and_true _).trans (Tree.discerns_array InputPart.discerns_layout ps qs)
  case output.output ps qs => exact Tree.discerns_array OutputPart.discerns_layout ps qs
  all_goals rfl

theorem Message.discerns_layout : Discerns Message.layout := by
  intro m n
  have tags : (m.role.name == n.role.name) = (m.role == n.role) := Named.discerns_name m.role n.role
  have laid (m : Message Tree) : m.layout = .record [("extra", m.extra.layout), ("index", m.index.map .ofInt32),
      ("input_parts", m.content.fields.1), ("input_text", m.content.fields.2.1),
      ("output_parts", m.content.fields.2.2), ("role", some (.text m.role.name))] := by
    obtain ⟨index, role, content, extra⟩ := m
    cases content <;> rfl
  change _ = (m.index == n.index && m.role == n.role && m.content == n.content && m.extra == n.extra)
  rw [laid, laid, Tree.record_beq]
  · rw [← Content.discerns_fields m.content n.content]
    change _ = (_ && _ && (m.content.fields.1 == n.content.fields.1 && (m.content.fields.2.1 == n.content.fields.2.1 &&
      m.content.fields.2.2 == n.content.fields.2.2)) && _)
    simp only [List.map_cons, List.map_nil, List.cons_beq_cons, Option.some_beq_some, Tree.discerns_text _ _,
      Tree.discerns_ofInt32.option, Extra.discerns_layout _ _, tags]
    ac_rfl
  · rfl
  · simp

theorem SummaryFragment.discerns_layout : Discerns SummaryFragment.layout := by
  intro a b
  change (Tree.record _ == Tree.record _) = (a.text == b.text && a.extra == b.extra)
  rw [Tree.record_beq]
  · simp only [List.map_cons, List.map_nil, List.cons_beq_cons, Option.some_beq_some, Tree.discerns_text _ _,
      Extra.discerns_layout _ _]
    ac_rfl
  · rfl
  · simp

theorem Reasoning.discerns_layout : Discerns Reasoning.layout := by
  intro a b
  change (Tree.record _ == Tree.record _) = (a.index == b.index && a.summaryIndex == b.summaryIndex &&
    a.summary == b.summary && a.encryptedContent == b.encryptedContent && a.extra == b.extra)
  rw [Tree.record_beq]
  · simp only [List.map_cons, List.map_nil, List.cons_beq_cons, Option.some_beq_some, Tree.discerns_text _ _,
      Tree.discerns_ofInt32.option, Tree.discerns_array SummaryFragment.discerns_layout _ _, Extra.discerns_layout _ _]
    ac_rfl
  · rfl
  · simp

theorem ToolCall.discerns_layout : Discerns ToolCall.layout := by
  intro a b
  have tags : (a.type.name == b.type.name) = (a.type == b.type) := Named.discerns_name a.type b.type
  change (Tree.record _ == Tree.record _) = (a.index == b.index && a.type == b.type && a.id == b.id &&
    a.name == b.name && a.arguments == b.arguments && a.extra == b.extra)
  rw [Tree.record_beq]
  · simp only [List.map_cons, List.map_nil, List.cons_beq_cons, Option.some_beq_some, Tree.discerns_text _ _,
      Tree.discerns_ofInt32.option, Extra.discerns_layout _ _, tags]
    ac_rfl
  · rfl
  · simp

theorem McpResult.discerns_layout : Discerns McpResult.layout := by
  intro a b
  have tags : (a.status.name == b.status.name) = (a.status == b.status) := Named.discerns_name a.status b.status
  change (Tree.record _ == Tree.record _) = (a.content == b.content && a.approvalRequestId == b.approvalRequestId &&
    a.status == b.status && a.error == b.error && a.extra == b.extra)
  rw [Tree.record_beq]
  · simp only [List.map_cons, List.map_nil, List.cons_beq_cons, Option.some_beq_some, Tree.discerns_text _ _,
      Extra.discerns_layout _ _, tags]
    ac_rfl
  · rfl
  · simp

/-- The fields of a tool output for the two forms of what the tool gave. -/
def ToolOutput.fields : Option (ToolOutput Tree) → Option Tree × Option Tree
  | none => (none, none)
  | some (.custom content) => (some (.object [("content", .text content)]), none)
  | some (.mcp result) => (none, some result.layout)

theorem ToolOutput.discerns_fields : Discerns ToolOutput.fields := by
  intro o o'
  rcases o with _ | s | r <;> rcases o' with _ | t | u
  case some.custom.some.custom =>
    change ((Tree.object _ == Tree.object _) && true) = (s == t)
    rw [Tree.object_beq, List.cons_beq_cons, Tree.entry_beq, Tree.discerns_text]
    simp
  case some.mcp.some.mcp => exact McpResult.discerns_layout r u
  all_goals rfl

theorem ToolCallOutput.discerns_layout : Discerns ToolCallOutput.layout := by
  intro a b
  have tags : (a.type.name == b.type.name) = (a.type == b.type) := Named.discerns_name a.type b.type
  have laid (o : ToolCallOutput Tree) : o.layout = .record [("custom", (ToolOutput.fields o.output).1),
      ("index", o.index.map .ofInt32), ("mcp", (ToolOutput.fields o.output).2), ("tool_call_id", some (.text o.callId)),
      ("tool_name", some (.text o.toolName)), ("type", some (.text o.type.name))] := by
    obtain ⟨index, type, callId, toolName, output⟩ := o
    rcases output with _ | _ | _ <;> rfl
  change _ = (a.index == b.index && a.type == b.type && a.callId == b.callId && a.toolName == b.toolName &&
    a.output == b.output)
  rw [laid, laid, Tree.record_beq]
  · rw [← ToolOutput.discerns_fields a.output b.output]
    change _ = (_ && ((ToolOutput.fields a.output).1 == (ToolOutput.fields b.output).1 &&
      (ToolOutput.fields a.output).2 == (ToolOutput.fields b.output).2))
    simp only [List.map_cons, List.map_nil, List.cons_beq_cons, Option.some_beq_some, Tree.discerns_text _ _,
      Tree.discerns_ofInt32.option, tags]
    ac_rfl
  · rfl
  · simp

theorem ToolListing.discerns_layout : Discerns ToolListing.layout := by
  intro a b
  change (Tree.record _ == Tree.record _) =
    (a.name == b.name && a.description == b.description && a.inputSchema == b.inputSchema)
  rw [Tree.record_beq]
  · simp only [List.map_cons, List.map_nil, List.cons_beq_cons, Option.some_beq_some, Tree.discerns_text _ _]
    ac_rfl
  · rfl
  · simp

theorem McpListTools.discerns_layout : Discerns McpListTools.layout := by
  intro a b
  change (Tree.object _ == Tree.object _) = (a.serverLabel == b.serverLabel && a.tools == b.tools && a.error == b.error)
  simp only [Tree.object_beq, List.cons_beq_cons, Tree.entry_beq, Tree.discerns_text _ _,
    Tree.discerns_array ToolListing.discerns_layout _ _]
  ac_rfl

theorem ApprovalRequest.discerns_layout : Discerns ApprovalRequest.layout := by
  rintro ⟨name, arguments, label⟩ ⟨name', arguments', label'⟩
  rw [Bool.eq_iff_iff]
  change (Tree.object _ == Tree.object _) = true ↔ _
  simp only [Tree.object_beq, List.cons_beq_cons, Tree.entry_beq, Tree.discerns_text _ _, Bool.and_eq_true,
    beq_iff_eq, List.beq_nil_eq, List.isEmpty_nil, and_true, mk.injEq]
  tauto

theorem ApprovalResponse.discerns_layout : Discerns ApprovalResponse.layout := by
  rintro ⟨id, approve, reason⟩ ⟨id', approve', reason'⟩
  have answers : (Tree.bool approve == Tree.bool approve') = (approve == approve') := rfl
  rw [Bool.eq_iff_iff]
  change (Tree.object _ == Tree.object _) = true ↔ _
  simp only [Tree.object_beq, List.cons_beq_cons, Tree.entry_beq, Tree.discerns_text _ _, answers,
    Bool.and_eq_true, beq_iff_eq, List.beq_nil_eq, List.isEmpty_nil, and_true, mk.injEq]

theorem Payload.discerns_layout (p q : Payload Tree) : (p.type == q.type && p.layout == q.layout) = (p == q) := by
  cases p <;> cases q
  case message.message m n => exact Message.discerns_layout m n
  case reasoning.reasoning r s => exact Reasoning.discerns_layout r s
  case toolCall.toolCall c d => exact ToolCall.discerns_layout c d
  case toolCallOutput.toolCallOutput o o' => exact ToolCallOutput.discerns_layout o o'
  case mcpListTools.mcpListTools l k => exact McpListTools.discerns_layout l k
  case mcpToolApprovalRequest.mcpToolApprovalRequest q r => exact ApprovalRequest.discerns_layout q r
  case mcpToolApprovalResponse.mcpToolApprovalResponse a b => exact ApprovalResponse.discerns_layout a b
  all_goals rfl

theorem Block.discerns_layout : Discerns Block.layout := by
  rintro ⟨type, payload⟩ ⟨type', payload'⟩
  have tags : (Tree.text type.name == Tree.text type'.name) = (type == type') := Named.discerns_name type type'
  change _ = (type == type' && payload == payload')
  rcases payload with _ | p <;> rcases payload' with _ | q
  · change (Tree.object _ == Tree.object _) = _
    simp only [Tree.object_beq, List.cons_beq_cons, Tree.entry_beq, tags]
    rfl
  · exact (Tree.object_beq _ _).trans ((Bool.and_false _).trans (Bool.and_false _).symm)
  · exact (Tree.object_beq _ _).trans ((Bool.and_false _).trans (Bool.and_false _).symm)
  · have held : (p.type.name == q.type.name) = (p.type == q.type) := Named.discerns_name p.type q.type
    have payloads := Payload.discerns_layout p q
    rw [← held] at payloads
    change (Tree.object _ == Tree.object _) = (_ && p == q)
    rw [← payloads, Tree.object_beq, List.cons_beq_cons, List.cons_beq_cons, Tree.entry_beq, tags]
    change ((_ == _ && _ == _) && (_ && true)) = _
    ac_rfl

theorem Finish.discerns_layout : Discerns Finish.layout := by
  rintro ⟨status, reason⟩ ⟨status', reason'⟩
  have tags : (status.name == status'.name) = (status == status') := Named.discerns_name status status'
  rw [Bool.eq_iff_iff]
  change (Tree.object _ == Tree.object _) = true ↔ _
  simp only [Tree.object_beq, List.cons_beq_cons, Tree.entry_beq, Tree.discerns_text _ _, tags,
    Bool.and_eq_true, beq_iff_eq, List.beq_nil_eq, List.isEmpty_nil, and_true, mk.injEq]
  tauto

theorem Usage.discerns_layout : Discerns Usage.layout := by
  rintro ⟨input, cached, output, reasoning, total⟩ ⟨input', cached', output', reasoning', total'⟩
  rw [Bool.eq_iff_iff]
  change (Tree.object _ == Tree.object _) = true ↔ _
  simp only [Tree.object_beq, List.cons_beq_cons, Tree.entry_beq, Tree.discerns_ofInt64 _ _, Bool.and_eq_true,
    beq_iff_eq, List.beq_nil_eq, List.isEmpty_nil, and_true, mk.injEq]

theorem Response.discerns_layout : Discerns Response.layout := by
  intro a b
  change (Tree.record _ == Tree.record _) =
    (a.id == b.id && a.finish == b.finish && a.usage == b.usage && a.blocks == b.blocks)
  rw [Tree.record_beq]
  · simp only [List.map_cons, List.map_nil, List.cons_beq_cons, Option.some_beq_some, Tree.discerns_text _ _,
      Tree.discerns_array Block.discerns_layout _ _, Finish.discerns_layout.option, Usage.discerns_layout.option]
    ac_rfl
  · rfl
  · simp

variable {F : TypeFamily}

/-- Values of a bound type are equal exactly when the payloads that they are encoded as are. -/
def Registry.Discerning (R : Registry F) : Prop :=
  ∀ c ∈ R.bindings, ∀ v v' p p', c.2.encode v = .ok p → c.2.encode v' = .ok p' → F.same c.1 v v' = (p == p')

namespace Extension

theorem record_beq (id id' : String) (p p' : Tree) : (record id p == record id' p') = (p == p' && id == id') := by
  change (Tree.object _ == Tree.object _) = _
  simp only [Tree.object_beq, List.cons_beq_cons, Tree.entry_beq, Tree.discerns_text _ _, List.beq_nil_eq,
    List.isEmpty_nil, Bool.and_true]

theorem record_beq_of_ids {id id' : String} (h : id ≠ id') (p p' : Tree) : (record id p == record id' p') = false := by
  rw [record_beq, beq_false_of_ne h, Bool.and_false]

/-- Records compare as the values that they are of. -/
theorem toWire_beq {R : Registry F} (hR : R.Sound) (hE : R.Discerning) {key key' : String} {x y : Extension F}
    {w u : Tree} (hx : toWire R key x = .ok w) (hy : toWire R key' y = .ok u) : (w == u) = (x == y) := by
  rcases x with a | ⟨j, v⟩ <;> rcases y with b | ⟨k, v'⟩
  · obtain ⟨-, rfl⟩ := toWire_plain.1 hx
    obtain ⟨-, rfl⟩ := toWire_plain.1 hy
    rw [record_beq, beq_self_eq_true, Bool.and_true]
    rfl
  · obtain ⟨-, rfl⟩ := toWire_plain.1 hx
    obtain ⟨b, p, hb, -, rfl⟩ := toWire_typed.1 hy
    exact record_beq_of_ids (hR.unreserved _ (Registry.mem_of_byType? hb)).symm a p
  · obtain ⟨b, p, hb, -, rfl⟩ := toWire_typed.1 hx
    obtain ⟨-, rfl⟩ := toWire_plain.1 hy
    exact record_beq_of_ids (hR.unreserved _ (Registry.mem_of_byType? hb)) p _
  · obtain ⟨b, p, hb, hp, rfl⟩ := toWire_typed.1 hx
    obtain ⟨c, q, hc, hq, rfl⟩ := toWire_typed.1 hy
    change _ = if h : j = k then F.same k (h ▸ v) v' else false
    by_cases hjk : j = k
    · subst hjk
      obtain rfl : b = c := Option.some.inj (hb.symm.trans hc)
      rw [dif_pos rfl, record_beq, beq_self_eq_true, Bool.and_true]
      exact (hE _ (Registry.mem_of_byType? hb) v v' p q hp hq).symm
    · have hids : b.id ≠ c.id := by
        intro hid
        have found := hR.byId?_of_byType? hb
        rw [hid, hR.byId?_of_byType? hc] at found
        cases found
        exact hjk rfl
      rw [dif_neg hjk]
      exact record_beq_of_ids hids p q

end Extension

theorem Registry.truth_discerning : truth.Discerning := by
  intro c hc v v' p p' hp hp'
  obtain rfl := List.mem_singleton.1 hc
  cases hp
  cases hp'
  rfl

/-- The greeting with a plain value where it has a typed one, though both have the same payload. -/
def Response.plainer : Response (Extension .truth) where
  id := "turn"
  blocks := [
    { type := .message
      payload := some (.message {
        content := .output [.text "hi" (Dict.empty.put "seen" (.plain (.bool true)))]
        extra := Dict.empty.put "trace" (.plain (.array [.null, .int 0])) }) }]

end TurnCodec
