import TurnCodec.Proofs.Codec
/-! Answers that later registrations leave alone. The one answer that can change is that a value
has no binding yet: every other failure is met where it was before, and so is every success. -/

namespace TurnCodec

open Bearing

/-- The second outcome is the first one again, unless that is a passing failure. -/
def Persists {ε α : Type} (passing : ε → Prop) (x y : Except ε α) : Prop :=
  (∀ e, x = .error e → ¬ passing e) → y = x

namespace Persists

variable {ε α β : Type} {passing : ε → Prop} {x y : Except ε α} {f g : α → Except ε β}

theorem refl (x : Except ε α) : Persists passing x x := fun _ => rfl

theorem of_passing {e : ε} (h : passing e) (y : Except ε α) : Persists passing (.error e) y :=
  fun settled => absurd h (settled e rfl)

theorem ok_iff {a : α} : Persists passing (.ok a) y ↔ y = .ok a := by
  simp [Persists]

theorem bind (h : Persists passing x y) (hf : ∀ a, Persists passing (f a) (g a)) :
    Persists passing (x >>= f) (y >>= g) := by
  intro settled
  rcases x with e | a
  · rw [h fun e' he => settled e' (congrArg (· >>= f) he)]
    rfl
  · rw [ok_iff.1 h]
    exact hf a settled

theorem after (x : Except ε α) (hf : ∀ a, Persists passing (f a) (g a)) : Persists passing (x >>= f) (x >>= g) :=
  (refl x).bind hf

theorem map (h : Persists passing x y) (f : α → β) : Persists passing (f <$> x) (f <$> y) := by
  rw [map_eq_pure_bind, map_eq_pure_bind]
  exact h.bind fun a => refl _

theorem mapM (h : ∀ a, Persists passing (f a) (g a)) (xs : List α) : Persists passing (xs.mapM f) (xs.mapM g) := by
  induction xs with
  | nil => exact refl _
  | cons x xs ih =>
    rw [List.mapM_cons, List.mapM_cons]
    exact (h x).bind fun y => ih.bind fun ys => refl _

end Persists

section
variable {E : Type} {passing : Malformed → Prop} {read read' : String → Tree → Except Malformed E}
  (h : ∀ key w, Persists passing (read key w) (read' key w))
include h

theorem Extra.persists_ofWire (fs : Fields) : Persists passing (ofWire read fs) (ofWire read' fs) := by
  unfold ofWire
  rcases fs.lookup "extra" with _ | w
  · exact .refl _
  · refine .after _ fun records => ?_
    refine .bind (.mapM (fun record => ?_) records) fun values => .refl _
    exact (h _ _).bind fun value => .refl _

theorem Media.persists_ofWire (fs : Fields) : Persists passing (ofWire read fs) (ofWire read' fs) := by
  refine .after _ fun url => .after _ fun base64Data => .after _ fun mimeType => ?_
  exact (Extra.persists_ofWire h fs).bind fun extra => .refl _

theorem InputPart.persists_ofWire (w : Tree) : Persists passing (ofWire read w) (ofWire read' w) := by
  refine .after _ fun fs => .after _ fun type => ?_
  have media := Media.persists_ofWire h fs
  cases type with
  | text => exact .refl _
  | image | file => exact media.bind fun m => .refl _
  | audio | video => exact media.map _

theorem OutputPart.persists_ofWire (w : Tree) : Persists passing (ofWire read w) (ofWire read' w) := by
  refine .after _ fun fs => .after _ fun type => ?_
  have media := Media.persists_ofWire h fs
  cases type with
  | text => exact .after _ fun content => (Extra.persists_ofWire h fs).bind fun extra => .refl _
  | image | audio | video => exact media.map _
  | file => exact .refl _

theorem Message.persists_contentOfWire (fs : Fields) :
    Persists passing (contentOfWire read fs) (contentOfWire read' fs) := by
  unfold contentOfWire
  split
  · exact .refl _
  · refine .after _ fun parts => ?_
    exact .bind (.mapM (InputPart.persists_ofWire h) parts) fun parts => .refl _
  · refine .after _ fun parts => ?_
    exact .bind (.mapM (OutputPart.persists_ofWire h) parts) fun parts => .refl _
  · exact .refl _

theorem Message.persists_ofWire (w : Tree) : Persists passing (ofWire read w) (ofWire read' w) := by
  refine .after _ fun fs => .after _ fun role => .after _ fun index => ?_
  refine (persists_contentOfWire h fs).bind fun content => ?_
  exact (Extra.persists_ofWire h fs).bind fun extra => .refl _

theorem SummaryFragment.persists_ofWire (w : Tree) : Persists passing (ofWire read w) (ofWire read' w) := by
  refine .after _ fun fs => .after _ fun text => ?_
  exact (Extra.persists_ofWire h fs).bind fun extra => .refl _

theorem Reasoning.persists_ofWire (w : Tree) : Persists passing (ofWire read w) (ofWire read' w) := by
  refine .after _ fun fs => .after _ fun index => .after _ fun summaryIndex => .after _ fun fragments => ?_
  refine .bind (.mapM (SummaryFragment.persists_ofWire h) fragments) fun summary => .after _ fun encryptedContent => ?_
  exact (Extra.persists_ofWire h fs).bind fun extra => .refl _

theorem ToolCall.persists_ofWire (w : Tree) : Persists passing (ofWire read w) (ofWire read' w) := by
  refine .after _ fun fs => .after _ fun index => .after _ fun type => .after _ fun id => .after _ fun name =>
    .after _ fun arguments => ?_
  exact (Extra.persists_ofWire h fs).bind fun extra => .refl _

theorem McpResult.persists_ofWire (w : Tree) : Persists passing (ofWire read w) (ofWire read' w) := by
  refine .after _ fun fs => .after _ fun content => .after _ fun approvalRequestId => .after _ fun status =>
    .after _ fun error => ?_
  exact (Extra.persists_ofWire h fs).bind fun extra => .refl _

theorem ToolCallOutput.persists_outputOfWire (callId : String) (fs : Fields) :
    Persists passing (outputOfWire read callId fs) (outputOfWire read' callId fs) := by
  unfold outputOfWire
  split
  · exact .refl _
  · exact .refl _
  · exact (McpResult.persists_ofWire h _).map _
  · exact .refl _

theorem ToolCallOutput.persists_ofWire (w : Tree) : Persists passing (ofWire read w) (ofWire read' w) := by
  refine .after _ fun fs => .after _ fun index => .after _ fun type => .after _ fun callId =>
    .after _ fun toolName => ?_
  exact (persists_outputOfWire h callId fs).bind fun output => .refl _

theorem Payload.persists_ofWire (held : BlockType) (w : Tree) :
    Persists passing (ofWire read held w) (ofWire read' held w) := by
  cases held with
  | message => exact (Message.persists_ofWire h w).map _
  | reasoning => exact (Reasoning.persists_ofWire h w).map _
  | toolCall => exact (ToolCall.persists_ofWire h w).map _
  | toolCallOutput => exact (ToolCallOutput.persists_ofWire h w).map _
  | mcpListTools | mcpToolApprovalRequest | mcpToolApprovalResponse => exact .refl _

theorem Block.persists_ofWire (w : Tree) : Persists passing (ofWire read w) (ofWire read' w) := by
  refine .after _ fun fs => .after _ fun type => ?_
  rcases payloadFields fs with _ | ⟨⟨held, w⟩, _ | _⟩
  · exact .refl _
  · exact (Payload.persists_ofWire h held w).bind fun payload => .refl _
  · exact .refl _

theorem Response.persists_readWire (w : Tree) : Persists passing (readWire read w) (readWire read' w) := by
  refine .after _ fun fs => .after _ fun id => .after _ fun finish => .after _ fun usage => .after _ fun items => ?_
  exact .bind (.mapM (Block.persists_ofWire h) items) fun blocks => .refl _

end

/-- A visit persists if the function does on every value. -/
theorem Bearing.persists_visit {X : Type → Type} [Bearing X] {ε E E' : Type} [Inhabited E'] {passing : ε → Prop}
    {f g : String → E → Except ε E'} (h : ∀ key v, Persists passing (f key v) (g key v)) (x : X E) :
    Persists passing (visit f x) (visit g x) := by
  have hcheck : Persists passing (check f (extras x)) (check g (extras x)) := by
    induction extras x with
    | nil => exact .refl _
    | cons e es ih =>
      rw [check_cons, check_cons]
      exact (h e.1 e.2).bind fun _ => ih
  intro settled
  rw [visit_eq] at settled
  rw [visit_eq, visit_eq, hcheck fun e he => settled e (congrArg _ he)]
  rcases hf : check f (extras x) with e | _
  · rfl
  · have hmap : map (valueOf g) x = map (valueOf f) x := by
      apply map_agree
      intro e he
      obtain ⟨w, hw⟩ := check_eq_ok.1 hf e he
      have hg := h e.1 e.2
      rw [hw, Persists.ok_iff] at hg
      rw [valueOf_eq hg, valueOf_eq hw]
    rw [map_ok, map_ok, hmap]

/-- Reading fails for an id that is not bound. -/
def Malformed.Unbound (m : Malformed) : Prop := m.report.kind = .unknownExtensionType

/-- No other failure is reported under that kind. -/
theorem Malformed.unbound_iff {m : Malformed} : m.Unbound ↔ ∃ key id, m = unknownType key id := by
  cases m with
  | unknownType key id => exact iff_of_true rfl ⟨key, id, rfl⟩
  | refused key id why => cases why <;> simp [Unbound, report]
  | _ => simp [Unbound, report, Report.corrupt]

/-- Writing fails for a type that is not bound. -/
def Unwritable.Unbound (u : Unwritable) : Prop := u.report.code = "unregistered_extension_value"

theorem Unwritable.unbound_iff {u : Unwritable} : u.Unbound ↔ ∃ key name, u = unregistered key name := by
  cases u with
  | unregistered key name => exact iff_of_true rfl ⟨key, name, rfl⟩
  | refused key id why => cases why <;> simp [Unbound, report]
  | discarded key => simp [Unbound, report]

section
variable {F : TypeFamily} {R R' : Registry F} (h : R.Within R')
include h

theorem Extension.persists_ofWire (key : String) (w : Tree) :
    Persists Malformed.Unbound (ofWire R key w) (ofWire R' key w) := by
  refine .after _ fun fs => .after _ fun id => .after _ fun p => ?_
  unfold resolve
  split_ifs with hplain
  · exact .refl _
  · rcases hid : R.byId? id with _ | c
    · exact .of_passing (Malformed.unbound_iff.2 ⟨key, id, rfl⟩) _
    · rw [h.byId id c hid]
      exact .refl _

theorem Extension.persists_toWire (key : String) (x : Extension F) :
    Persists Unwritable.Unbound (toWire R key x) (toWire R' key x) := by
  rcases x with t | ⟨k, v⟩
  · cases t <;> exact .refl _
  · rw [toWire, toWire]
    rcases hk : R.byType? k with _ | b
    · exact .of_passing (Unwritable.unbound_iff.2 ⟨key, F.name k, rfl⟩) _
    · rw [h.byType k b hk]
      exact .refl _

theorem Response.persists_ofWire (w : Tree) : Persists Malformed.Unbound (ofWire R w) (ofWire R' w) :=
  persists_readWire (Extension.persists_ofWire h) w

theorem Response.persists_toWire (r : Response (Extension F)) :
    Persists Unwritable.Unbound (r.toWire R) (r.toWire R') :=
  (persists_visit (X := Response) (Extension.persists_toWire h) r).map _

end

namespace Codec

variable {F : TypeFamily} {R R' : Registry F} {o : Options}

theorem decode_settled (h : R.Within R') {b : List UInt8}
    (settled : ∀ f, (decode ⟨R, o⟩ b).value = .error f → f.report.kind ≠ .unknownExtensionType) :
    decode ⟨R', o⟩ b = decode ⟨R, o⟩ b := by
  have hseen : inspect ⟨R', o⟩ b = inspect ⟨R, o⟩ b := rfl
  unfold decode
  rw [hseen]
  rcases hw : inspect ⟨R, o⟩ b with e | w
  · rfl
  have hread : Response.ofWire R' w = Response.ofWire R w := by
    apply Response.persists_ofWire h w
    intro m hm
    apply settled (.malformed m)
    rw [decode_value, hw, mapError_ok, ok_bind, hm]
    rfl
  have hreceive : Response.receive R' w = Response.receive R w := by
    rw [Response.receive, Response.receive, hread]
  simp only [hreceive]

theorem encodeWith_settled (h : R.Within R') {write : Tree → List UInt8} {r : Response (Extension F)}
    (settled : ∀ f, (encodeWith write ⟨R, o⟩ r).value = .error f → f.report.code ≠ "unregistered_extension_value") :
    encodeWith write ⟨R', o⟩ r = encodeWith write ⟨R, o⟩ r := by
  have hwire : wireOf ⟨R', o⟩ r = wireOf ⟨R, o⟩ r := by
    unfold wireOf
    rcases hgate : if o.validateOnEncode then r.validate else .ok () with v | _
    · rfl
    have hwrite : r.toWire R' = r.toWire R := by
      apply Response.persists_toWire h r
      intro u hu
      apply settled (.unwritable u)
      simp only [encodeWith, wireOf, hgate, hu]
      rfl
    simp only [hwrite]
  rw [encodeWith, encodeWith, hwire]

end Codec

/-- Further calls, whatever they answer, leave alone what was read or written before them, down to
the failure and the log. The exception is a failure for want of a binding. -/
theorem Registry.run_settled {F : TypeFamily} (R : Registry F) (more : List ((k : F.Key) × Binding F k)) :
    (∀ w, (∀ m, Response.ofWire R w = .error m → m.report.kind ≠ .unknownExtensionType) →
      Response.ofWire (R.run more) w = Response.ofWire R w) ∧
    (∀ r : Response (Extension F), (∀ u, r.toWire R = .error u → u.report.code ≠ "unregistered_extension_value") →
      r.toWire (R.run more) = r.toWire R) ∧
    (∀ o b, (∀ f, (Codec.decode ⟨R, o⟩ b).value = .error f → f.report.kind ≠ .unknownExtensionType) →
      Codec.decode ⟨R.run more, o⟩ b = Codec.decode ⟨R, o⟩ b) ∧
    ∀ write o r, (∀ f, (Codec.encodeWith write ⟨R, o⟩ r).value = .error f →
        f.report.code ≠ "unregistered_extension_value") →
      Codec.encodeWith write ⟨R.run more, o⟩ r = Codec.encodeWith write ⟨R, o⟩ r := by
  have within : R.Within (R.run more) := R.within_run more
  refine ⟨fun w => ?_, fun r => ?_, fun o b => ?_, fun write o r => ?_⟩
  · exact Response.persists_ofWire within w
  · exact Response.persists_toWire within r
  · exact Codec.decode_settled within
  · exact Codec.encodeWith_settled within

theorem Registry.run_settled_insistent :
    ∃ (r : Response (Extension .truth)) (b : List UInt8),
      Response.ofWire truth Tree.greeting = .ok r ∧
      Response.ofWire (truth.run insistent) Tree.greeting = .ok r ∧
      Response.greeting.toWire (truth.run insistent) = .ok Tree.greeting ∧
      (Codec.encode ⟨truth.run insistent, {}⟩ Response.greeting).value = .ok b ∧
      (Codec.decode ⟨truth.run insistent, {}⟩ b).value = .ok r := by
  obtain ⟨hread, hwrite, hdecode, hencode⟩ := run_settled truth insistent
  have readable : ∃ r, Response.ofWire truth Tree.greeting = .ok r ∧ r.validate = .ok () := ⟨_, rfl, rfl⟩
  obtain ⟨r, read, valid⟩ := readable
  let b := Envelope.pack Tree.greeting.toCbor
  have written : Response.greeting.toWire truth = .ok Tree.greeting := rfl
  have encoded : (Codec.encode ⟨truth, {}⟩ Response.greeting).value = .ok b := rfl
  have seen : Codec.inspect ⟨truth, {}⟩ b = .ok Tree.greeting :=
    Codec.inspect_pack written Tree.greeting_isBody (by decide +kernel) (by decide)
  have decoded : (Codec.decode ⟨truth, {}⟩ b).value = .ok r := Codec.decode_eq_ok.2 ⟨_, seen, read, valid⟩
  refine ⟨r, b, read, ?_, ?_, ?_, ?_⟩
  · exact (hread _ fun m hm => nomatch read.symm.trans hm).trans read
  · exact (hwrite _ fun u hu => nomatch written.symm.trans hu).trans written
  · have same := hencode Tree.toCbor {} Response.greeting fun f hf => nomatch encoded.symm.trans hf
    exact (congrArg Logged.value same).trans encoded
  · have same := hdecode {} b fun f hf => nomatch decoded.symm.trans hf
    exact (congrArg Logged.value same).trans decoded

/-- Before a type is bound, its values cannot be read. -/
example : Response.ofWire (∅ : Registry .truth) Tree.greeting = .error (.unknownType "seen" "vendor.Truth") := rfl

end TurnCodec
