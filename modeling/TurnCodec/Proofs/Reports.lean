import TurnCodec.Proofs.Settled
/-! What callers are told. They act on the kind of a report, so each call has few kinds to fail with,
whatever it is given and whatever the encoders and decoders of the caller do; and a code stands for
one kind, whichever call it comes from. -/

namespace TurnCodec

open Bearing

/-- The codes that calls fail with, each with its kind. -/
def Report.kinds : List (String × FaultKind) := [
  ("unrepresentable_extension_value", .unregisteredExtensionValue),
  ("unregistered_extension_value", .unregisteredExtensionValue),
  ("extension_encode_failed", .internal),
  ("corrupt_payload", .corruptPayload),
  ("tag_out_of_range", .corruptPayload),
  ("extension_decode_failed", .corruptPayload),
  ("unknown_extension_type", .unknownExtensionType),
  ("message_content_mismatch", .variantMismatch),
  ("multiple_tool_outputs", .variantMismatch),
  ("multiple_payloads", .variantMismatch),
  ("empty_block", .variantMismatch),
  ("block_type_mismatch", .variantMismatch),
  ("empty_tool_output", .variantMismatch),
  ("tool_output_type_mismatch", .variantMismatch),
  ("payload_too_large", .corruptPayload),
  ("truncated_header", .corruptPayload),
  ("bad_magic", .corruptPayload),
  ("unsupported_version", .unsupportedVersion),
  ("nesting_too_deep", .corruptPayload),
  ("declared_length_exceeds_payload", .corruptPayload)]

/-- The kind of the report is the one that its code stands for. -/
def Report.Listed (p : Report) : Prop := kinds.lookup p.code = some p.kind

theorem Unwritable.listed (u : Unwritable) : u.report.Listed := by
  cases u with
  | refused key id why => cases why <;> rfl
  | _ => rfl

theorem Malformed.listed (m : Malformed) : m.report.Listed := by
  cases m with
  | refused key id why => cases why <;> rfl
  | _ => rfl

theorem Violation.listed (v : Violation) : v.report.Listed := by
  obtain ⟨block, flaw⟩ := v
  cases flaw <;> rfl

theorem Envelope.Fault.listed (e : Fault) : e.report.Listed := by
  cases e with
  | body why => cases why <;> rfl
  | _ => rfl

theorem Unwritable.kind (u : Unwritable) : u.report.kind = .unregisteredExtensionValue ∨
    u.report.kind = .internal ∧ u.report.code = "extension_encode_failed" := by
  cases u with
  | refused key id why => cases why <;> exact .inr ⟨rfl, rfl⟩
  | _ => exact .inl rfl

theorem Malformed.kind_mem (m : Malformed) :
    m.report.kind ∈ [FaultKind.corruptPayload, .unknownExtensionType, .variantMismatch] := by
  cases m with
  | refused key id why => cases why <;> simp [report]
  | _ => simp [report, Report.corrupt, Report.under, Registry.unknownId]

theorem Violation.kind (v : Violation) : v.report.kind = .variantMismatch := by
  obtain ⟨block, flaw⟩ := v
  cases flaw <;> rfl

theorem Envelope.Fault.kind_mem (e : Fault) : e.report.kind ∈ [FaultKind.corruptPayload, .unsupportedVersion] := by
  cases e with
  | body why => cases why <;> simp [report]
  | _ => simp [report]

variable {F : TypeFamily}

namespace Extension

/-- The type of the value is bound, and its encoder throws on it. -/
def EncoderThrows (R : Registry F) : Extension F → Prop
  | plain _ => False
  | typed k v => ∃ b why, R.byType? k = some b ∧ b.encode v = .error why

/-- The tree is a record of a bound type, and its decoder throws on the payload. -/
def DecoderThrows (R : Registry F) (w : Tree) : Prop :=
  ∃ fs id p c why, w = .object fs ∧ fs.lookup "t" = some (.text id) ∧ fs.lookup "p" = some p ∧ id ≠ plainId ∧
    R.byId? id = some c ∧ c.2.decode p = .error why

variable {R : Registry F}

/-- An internal failure of the writer is one of an encoder. -/
theorem toWire_internal (key : String) {x : Extension F} :
    (∃ u, toWire R key x = .error u ∧ u.report.kind = .internal) ↔ x.EncoderThrows R := by
  cases x with
  | plain t =>
    cases t <;> simp [toWire, EncoderThrows, Unwritable.report]
  | typed k v =>
    rw [EncoderThrows, toWire]
    cases hb : R.byType? k with
    | none => simp [Unwritable.report, Report.under, Registry.unregisteredType]
    | some b =>
      cases hp : b.encode v with
      | ok p => simp [hp]
      | error why => cases why <;> simp [hp, Unwritable.report]

theorem ofWire_of_throws {w : Tree} (h : DecoderThrows R w) (key : String) :
    ∃ id why, ofWire R key w = .error (.refused key id why) := by
  obtain ⟨fs, id, p, ⟨k, b⟩, why, rfl, hid, hp, hne, hb, hwhy⟩ := h
  refine ⟨id, why, ?_⟩
  rw [ofWire, Tree.fieldsOf, ok_bind, Fields.text_eq_ok.2 hid, ok_bind, Fields.required_eq_ok.2 hp, ok_bind, resolve,
    if_neg hne, hb]
  simp only [show b.decode p = .error why from hwhy]

end Extension

namespace Response

/-- The reading of a tree comes to records with the property: it matters what would be made of these. -/
def Meets (R : Registry F) (p : Tree → Prop) (w : Tree) : Prop :=
  ∃ read : String → Tree → Except Malformed (Extension F),
    (∀ key t, ¬ p t → read key t = Extension.ofWire R key t) ∧ readWire read w ≠ ofWire R w

/-- A reading that comes to a decoder that throws ends there. -/
theorem ofWire_of_meets {R : Registry F} {w : Tree} (h : Meets R (Extension.DecoderThrows R) w) :
    ∃ key id why, ofWire R w = .error (.refused key id why) := by
  obtain ⟨read, hread, hne⟩ := h
  by_contra hrefused
  have each (key : String) (t : Tree) :
      Persists (fun m => ∃ key id why, m = Malformed.refused key id why) (Extension.ofWire R key t) (read key t) := by
    by_cases hthrows : Extension.DecoderThrows R t
    · obtain ⟨id, why, hw⟩ := Extension.ofWire_of_throws hthrows key
      rw [hw]
      exact .of_passing ⟨key, id, why, rfl⟩ _
    · rw [hread key t hthrows]
      exact .refl _
  refine hne (persists_readWire each w ?_)
  rintro _ hw ⟨key, id, why, rfl⟩
  exact hrefused ⟨key, id, why, hw⟩

theorem toWire_eq_error {R : Registry F} {r : Response (Extension F)} {u : Unwritable} : r.toWire R = .error u ↔
    ∃ before e after, extras r = before ++ e :: after ∧ (∀ d ∈ before, ∃ w, Extension.toWire R d.1 d.2 = .ok w) ∧
      Extension.toWire R e.1 e.2 = .error u := by
  rw [← visit_eq_error, toWire, show visit (Extension.toWire R) r = r.traverse (Extension.toWire R) from rfl]
  cases r.traverse (Extension.toWire R) <;> simp

end Response

namespace Codec

variable {c : Codec F}

theorem encodeWith_report {write : Tree → List UInt8} {r : Response (Extension F)} {f : EncodeFault}
    (h : (c.encodeWith write r).value = .error f) :
    (∃ v, f = .invalid v) ∨ ∃ u, r.toWire c.registry = .error u ∧ f = .unwritable u := by
  unfold encodeWith at h
  cases hw : c.wireOf r with
  | ok w =>
    rw [hw] at h
    cases h
  | error f' =>
    rw [hw] at h
    obtain rfl : f' = f := Except.error.inj h
    unfold wireOf at hw
    split at hw
    · exact .inl ⟨_, (Except.error.inj hw).symm⟩
    · cases hu : r.toWire c.registry with
      | error u =>
        rw [hu] at hw
        exact .inr ⟨u, rfl, (Except.error.inj hw).symm⟩
      | ok w =>
        rw [hu] at hw
        cases hw

theorem decode_kind (f : DecodeFault) : f.report.kind ∈
    [FaultKind.corruptPayload, .unsupportedVersion, .unknownExtensionType, .variantMismatch] := by
  cases f with
  | envelope e =>
    have h := e.kind_mem
    simp only [List.mem_cons, List.not_mem_nil, or_false, DecodeFault.report] at h ⊢
    tauto
  | malformed m =>
    have h := m.kind_mem
    simp only [List.mem_cons, List.not_mem_nil, or_false, DecodeFault.report] at h ⊢
    tauto
  | invalid v => simp [DecodeFault.report, v.kind]

end Codec

/-- The reports that calls fail with, for all callers, registries and inputs. -/
inductive Raised : Report → Prop
  | toWire {F : TypeFamily} {R : Registry F} {r : Response (Extension F)} {u : Unwritable}
      (h : r.toWire R = .error u) : Raised u.report
  | encode {F : TypeFamily} {c : Codec F} {write : Tree → List UInt8} {r : Response (Extension F)} {f : EncodeFault}
      (h : (c.encodeWith write r).value = .error f) : Raised f.report
  | ofWire {F : TypeFamily} {R : Registry F} {w : Tree} {m : Malformed} (h : Response.ofWire R w = .error m) :
      Raised m.report
  | inspect {F : TypeFamily} {c : Codec F} {b : List UInt8} {e : Envelope.Fault} (h : c.inspect b = .error e) :
      Raised e.report
  | decode {F : TypeFamily} {c : Codec F} {b : List UInt8} {f : DecodeFault} (h : (c.decode b).value = .error f) :
      Raised f.report

theorem Raised.listed {p : Report} (h : Raised p) : p.Listed := by
  cases h with
  | @toWire _ _ _ u h => exact u.listed
  | @encode _ _ _ _ f h =>
    cases f with
    | invalid v => exact v.listed
    | unwritable u => exact u.listed
  | @ofWire _ _ _ m h => exact m.listed
  | @inspect _ _ _ e h => exact e.listed
  | @decode _ _ _ f h =>
    cases f with
    | envelope e => exact e.listed
    | malformed m => exact m.listed
    | invalid v => exact v.listed

/-- What the calls with a registry fail with. -/
structure Registry.Contract (R : Registry F) : Prop where
  toWire : ∀ (r : Response (Extension F)) u, r.toWire R = .error u →
    u.report.kind = .unregisteredExtensionValue ∨ u.report.kind = .internal ∧ u.report.code = "extension_encode_failed"
  encoderThrew : ∀ r : Response (Extension F), (∃ u, r.toWire R = .error u ∧ u.report.kind = .internal) ↔
    ∃ before e after, extras r = before ++ e :: after ∧ (∀ d ∈ before, ∃ w, Extension.toWire R d.1 d.2 = .ok w) ∧
      e.2.EncoderThrows R
  encode : ∀ write options (r : Response (Extension F)) f, (Codec.encodeWith write ⟨R, options⟩ r).value = .error f →
    f.report.kind = .variantMismatch ∨ ∃ u, r.toWire R = .error u ∧ f.report = u.report
  ofWire : ∀ w m, Response.ofWire R w = .error m →
    m.report.kind ∈ [FaultKind.corruptPayload, .unknownExtensionType, .variantMismatch]
  decoderThrew : ∀ w, Response.Meets R (Extension.DecoderThrows R) w →
    ∃ m, Response.ofWire R w = .error m ∧ m.report.kind = .corruptPayload ∧ m.report.code = "extension_decode_failed"
  inspect : ∀ options b e, Codec.inspect ⟨R, options⟩ b = .error e →
    e.report.kind ∈ [FaultKind.corruptPayload, .unsupportedVersion]
  decode : ∀ options b f, (Codec.decode ⟨R, options⟩ b).value = .error f →
    f.report.kind ∈ [FaultKind.corruptPayload, .unsupportedVersion, .unknownExtensionType, .variantMismatch]

theorem Registry.contract (R : Registry F) : R.Contract where
  toWire r u _ := u.kind
  encoderThrew r := by
    constructor
    · rintro ⟨u, hu, hkind⟩
      obtain ⟨before, e, after, hes, hbefore, he⟩ := Response.toWire_eq_error.1 hu
      exact ⟨before, e, after, hes, hbefore, (Extension.toWire_internal e.1).1 ⟨u, he, hkind⟩⟩
    · rintro ⟨before, e, after, hes, hbefore, hthrows⟩
      obtain ⟨u, he, hkind⟩ := (Extension.toWire_internal e.1).2 hthrows
      exact ⟨u, Response.toWire_eq_error.2 ⟨before, e, after, hes, hbefore, he⟩, hkind⟩
  encode write options r f h := by
    obtain ⟨v, rfl⟩ | ⟨u, hu, rfl⟩ := Codec.encodeWith_report h
    · exact .inl v.kind
    · exact .inr ⟨u, hu, rfl⟩
  ofWire w m _ := m.kind_mem
  decoderThrew w h := by
    obtain ⟨key, id, why, hw⟩ := Response.ofWire_of_meets h
    refine ⟨_, hw, ?_⟩
    cases why <;> exact ⟨rfl, rfl⟩
  inspect options b e _ := e.kind_mem
  decode options b f _ := Codec.decode_kind f

/-- Every call keeps to the kinds of its contract, and all of them mean one kind by one code. -/
theorem Report.dependable : (∀ (F : TypeFamily) (R : Registry F), R.Contract) ∧
    ∀ p q, Raised p → Raised q → p.code = q.code → p.kind = q.kind := by
  refine ⟨fun F R => R.contract, fun p q hp hq hcode => ?_⟩
  have hkinds := hp.listed
  rw [Listed, hcode, hq.listed] at hkinds
  exact (Option.some.inj hkinds).symm

/-- The one binding is to an encoder and a decoder that throw, whatever they are given. -/
def Registry.fussy : Registry .truth :=
  ⟨[⟨(), { Binding.truth with encode := fun _ => .error .silent, decode := fun _ => .error (.because "busy") }⟩]⟩

/-- Read by a binding of the same id that does not throw, the greeting would be accepted. -/
theorem Registry.fussy_meets : Response.Meets fussy (Extension.DecoderThrows fussy) Tree.greeting := by
  have accepted : ∃ r, Response.readWire (Extension.ofWire truth) Tree.greeting = .ok r := ⟨_, rfl⟩
  have refused : Response.ofWire fussy Tree.greeting = .error (.refused "seen" "vendor.Truth" (.because "busy")) := rfl
  obtain ⟨r, hr⟩ := accepted
  refine ⟨Extension.ofWire truth, fun key t quiet => ?_, by rw [hr, refused]; nofun⟩
  unfold Extension.ofWire
  rcases hfs : t.fieldsOf ("extra." ++ key) with m | fs
  · rfl
  rcases hid : fs.text "t" with m | id
  · simp only [ok_bind, hid]
    rfl
  rcases hp : fs.required "p" with m | p
  · simp only [ok_bind, hid, hp]
    rfl
  simp only [ok_bind, hid, hp, Extension.resolve]
  by_cases hbound : id = "vendor.Truth"
  · subst hbound
    exact absurd ⟨fs, _, p, _, _, Tree.fieldsOf_eq_ok.1 hfs, Fields.text_eq_ok.1 hid, Fields.required_eq_ok.1 hp,
      by decide, rfl, rfl⟩ quiet
  · have unbound (R : Registry .truth) (h : R.bindings.map (·.2.id) = ["vendor.Truth"]) : R.byId? id = none := by
      rw [byId?_eq_none, h]
      simpa using hbound
    rw [unbound truth rfl, unbound fussy rfl]

theorem Report.dependable_fussy :
    (∃ u, Response.greeting.toWire .fussy = .error u ∧ u.report.kind = .internal) ∧
    ∃ m, Response.ofWire .fussy Tree.greeting = .error m ∧ m.report.kind = .corruptPayload ∧
      m.report.code = "extension_decode_failed" := by
  obtain ⟨contract, -⟩ := dependable
  have kept := contract .truth .fussy
  have first : extras Response.greeting =
      [] ++ ("seen", .typed () true) :: [("trace", .plain (.array [.null, .int 0]))] := rfl
  exact ⟨(kept.encoderThrew Response.greeting).2 ⟨_, _, _, first, nofun, _, .silent, rfl, rfl⟩,
    kept.decoderThrew Tree.greeting Registry.fussy_meets⟩

end TurnCodec
