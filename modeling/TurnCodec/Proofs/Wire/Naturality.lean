import TurnCodec.Proofs.Metadata
import TurnCodec.Wire.Response
/-! Readers give values and do not look into them: where each value is changed as it is read, the
content that is read has its values changed. So what is accepted, and what is refused and for what,
is up to the values that can be read, whatever they are read as. -/

namespace TurnCodec

open Bearing

namespace Dict

variable {α β : Type} (g : String → α → β)

theorem map_putEntry (k : String) (v : α) (es : List (String × α)) :
    (putEntry k v es).map (fun e => (e.1, g e.1 e.2)) = putEntry k (g k v) (es.map fun e => (e.1, g e.1 e.2)) := by
  induction es with
  | nil => rfl
  | cons e es ih =>
    rw [putEntry, List.map_cons, putEntry]
    split
    · rfl
    split
    · rfl
    · rw [List.map_cons, ih]

theorem map_add (d : Dict α) (k : String) (v : α) : map g (d.add k v) = (map g d).add k (g k v) := by
  have hget : (map g d).get? k = (d.get? k).map (g k) := lookup_map g d.entries k
  rw [add, add, hget, Option.isSome_map]
  split
  · rfl
  · exact ext (map_putEntry g k v d.entries)

theorem map_ofList (es : List (String × α)) : map g (ofList es) = ofList (es.map fun e => (e.1, g e.1 e.2)) := by
  rw [ofList, ofList, List.foldl_map]
  exact (List.foldl_hom (map g) fun d e => (map_add g d e.1 e.2).symm).symm

end Dict

section
variable {ε α β γ δ : Type} {x : Except ε α} {y : Except ε β} {g : α → β}

/-- What comes after a step that is changed, if it undoes the change. -/
theorem bind_changed {f : α → Except ε γ} {f' : β → Except ε δ} {k : γ → δ} (hx : y = g <$> x)
    (hf : ∀ a, f' (g a) = k <$> f a) : (y >>= f') = k <$> (x >>= f) := by
  rw [hx]
  cases x with
  | error e => rfl
  | ok a => exact hf a

/-- What comes after a step that is the same. -/
theorem after_changed {f : α → Except ε γ} {f' : α → Except ε δ} {k : γ → δ} (x : Except ε α)
    (hf : ∀ a, f' a = k <$> f a) : (x >>= f') = k <$> (x >>= f) := by
  cases x with
  | error e => rfl
  | ok a => exact hf a

theorem map_changed {c : α → γ} {c' : β → δ} {k : γ → δ} (hx : y = g <$> x) (hc : ∀ a, c' (g a) = k (c a)) :
    c' <$> y = k <$> c <$> x := by
  rw [hx]
  cases x with
  | error e => rfl
  | ok a => exact congrArg Except.ok (hc a)

theorem mapM_changed {f : α → Except ε β} {f' : α → Except ε γ} {g : β → γ} (h : ∀ a, f' a = g <$> f a) (as : List α) :
    as.mapM f' = List.map g <$> as.mapM f := by
  induction as with
  | nil => rfl
  | cons a as ih =>
    rw [List.mapM_cons, List.mapM_cons]
    exact bind_changed (h a) fun b => bind_changed ih fun bs => rfl

end

section
variable {E E' : Type} {read : String → Tree → Except Malformed E} {read' : String → Tree → Except Malformed E'}
  {g : String → E → E'} (h : ∀ key w, read' key w = g key <$> read key w)
include h

theorem Extra.ofWire_map (fs : Fields) : ofWire read' fs = map g <$> ofWire read fs := by
  unfold ofWire
  rcases fs.lookup "extra" with _ | w
  · rfl
  · refine after_changed _ fun records => ?_
    refine bind_changed (mapM_changed (g := fun v => (v.1, g v.1 v.2)) (fun record => ?_) records) fun values => ?_
    · exact bind_changed (h _ _) fun value => rfl
    · exact congrArg Except.ok (Dict.map_ofList g values).symm

theorem Media.ofWire_map (fs : Fields) : ofWire read' fs = map g <$> ofWire read fs := by
  refine after_changed _ fun url => after_changed _ fun base64Data => after_changed _ fun mimeType => ?_
  exact bind_changed (Extra.ofWire_map h fs) fun extra => rfl

theorem InputPart.ofWire_map (w : Tree) : ofWire read' w = map g <$> ofWire read w := by
  refine after_changed _ fun fs => after_changed _ fun type => ?_
  have media := Media.ofWire_map h fs
  cases type with
  | text => exact map_changed (id_map _).symm fun content => rfl
  | image | file => exact bind_changed media fun m => after_changed _ fun own => rfl
  | audio | video => exact map_changed media fun m => rfl

theorem OutputPart.ofWire_map (w : Tree) : ofWire read' w = map g <$> ofWire read w := by
  refine after_changed _ fun fs => after_changed _ fun type => ?_
  have media := Media.ofWire_map h fs
  cases type with
  | text => exact after_changed _ fun content => bind_changed (Extra.ofWire_map h fs) fun extra => rfl
  | image | audio | video => exact map_changed media fun m => rfl
  | file => rfl

theorem Message.contentOfWire_map (fs : Fields) : contentOfWire read' fs = map g <$> contentOfWire read fs := by
  unfold contentOfWire
  split
  · exact map_changed (id_map _).symm fun text => rfl
  · refine after_changed _ fun parts => ?_
    exact bind_changed (mapM_changed (InputPart.ofWire_map h) parts) fun parts => rfl
  · refine after_changed _ fun parts => ?_
    exact bind_changed (mapM_changed (OutputPart.ofWire_map h) parts) fun parts => rfl
  · rfl

theorem Message.ofWire_map (w : Tree) : ofWire read' w = map g <$> ofWire read w := by
  refine after_changed _ fun fs => after_changed _ fun role => after_changed _ fun index => ?_
  refine bind_changed (contentOfWire_map h fs) fun content => ?_
  exact bind_changed (Extra.ofWire_map h fs) fun extra => rfl

theorem SummaryFragment.ofWire_map (w : Tree) : ofWire read' w = map g <$> ofWire read w := by
  refine after_changed _ fun fs => after_changed _ fun text => ?_
  exact bind_changed (Extra.ofWire_map h fs) fun extra => rfl

theorem Reasoning.ofWire_map (w : Tree) : ofWire read' w = map g <$> ofWire read w := by
  refine after_changed _ fun fs => after_changed _ fun index => after_changed _ fun summaryIndex =>
    after_changed _ fun fragments => ?_
  refine bind_changed (mapM_changed (SummaryFragment.ofWire_map h) fragments) fun summary =>
    after_changed _ fun encryptedContent => ?_
  exact bind_changed (Extra.ofWire_map h fs) fun extra => rfl

theorem ToolCall.ofWire_map (w : Tree) : ofWire read' w = map g <$> ofWire read w := by
  refine after_changed _ fun fs => after_changed _ fun index => after_changed _ fun type =>
    after_changed _ fun id => after_changed _ fun name => after_changed _ fun arguments => ?_
  exact bind_changed (Extra.ofWire_map h fs) fun extra => rfl

theorem McpResult.ofWire_map (w : Tree) : ofWire read' w = map g <$> ofWire read w := by
  refine after_changed _ fun fs => after_changed _ fun content => after_changed _ fun approvalRequestId =>
    after_changed _ fun status => after_changed _ fun error => ?_
  exact bind_changed (Extra.ofWire_map h fs) fun extra => rfl

theorem ToolCallOutput.outputOfWire_map (callId : String) (fs : Fields) :
    outputOfWire read' callId fs = Option.map (map g) <$> outputOfWire read callId fs := by
  unfold outputOfWire
  split
  · rfl
  · exact after_changed _ fun custom => after_changed _ fun content => rfl
  · exact map_changed (McpResult.ofWire_map h _) fun result => rfl
  · rfl

theorem ToolCallOutput.ofWire_map (w : Tree) : ofWire read' w = map g <$> ofWire read w := by
  refine after_changed _ fun fs => after_changed _ fun index => after_changed _ fun type =>
    after_changed _ fun callId => after_changed _ fun toolName => ?_
  exact bind_changed (outputOfWire_map h callId fs) fun output => rfl

theorem Payload.ofWire_map (held : BlockType) (w : Tree) : ofWire read' held w = map g <$> ofWire read held w := by
  cases held with
  | message => exact map_changed (Message.ofWire_map h w) fun m => rfl
  | reasoning => exact map_changed (Reasoning.ofWire_map h w) fun r => rfl
  | toolCall => exact map_changed (ToolCall.ofWire_map h w) fun c => rfl
  | toolCallOutput => exact map_changed (ToolCallOutput.ofWire_map h w) fun o => rfl
  | mcpListTools | mcpToolApprovalRequest | mcpToolApprovalResponse =>
    exact map_changed (id_map _).symm fun p => rfl

theorem Block.ofWire_map (w : Tree) : ofWire read' w = map g <$> ofWire read w := by
  refine after_changed _ fun fs => after_changed _ fun type => ?_
  rcases payloadFields fs with _ | ⟨⟨held, w⟩, _ | _⟩
  · rfl
  · exact bind_changed (Payload.ofWire_map h held w) fun payload => rfl
  · rfl

theorem Response.readWire_map (w : Tree) : readWire read' w = map g <$> readWire read w := by
  refine after_changed _ fun fs => after_changed _ fun id => after_changed _ fun finish =>
    after_changed _ fun usage => after_changed _ fun items => ?_
  exact bind_changed (mapM_changed (Block.ofWire_map h) items) fun blocks => rfl

end

end TurnCodec
