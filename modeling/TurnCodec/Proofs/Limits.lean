import TurnCodec.Proofs.Payload
import TurnCodec.Proofs.Wire.Contents
/-! The limits of a codec on what it encoded itself. They act on payloads that come in
alone, so a payload that was written without complaint can be refused by the codec that
wrote it, for its length or its nesting; and for the subtypes of byte strings in it, which are
written as tags and not read. -/

namespace TurnCodec

namespace Envelope

/-- The codes of the guards on the size, the nesting and the announced entries. -/
def guardCodes : List String := ["payload_too_large", "nesting_too_deep", "declared_length_exceeds_payload"]

end Envelope

theorem Malformed.code_unguarded (m : Malformed) : m.report.code ∉ Envelope.guardCodes := by
  cases m with
  | refused key id why => cases why <;> simp [report, Envelope.guardCodes]
  | _ => simp [report, Report.corrupt, Report.under, Registry.unknownId, Envelope.guardCodes]

theorem Violation.code_unguarded (v : Violation) : v.report.code ∉ Envelope.guardCodes := by
  obtain ⟨block, flaw⟩ := v
  cases flaw <;> simp [report, Flaw.report, Report.under, Envelope.guardCodes]

namespace Codec

variable {F : TypeFamily} {c : Codec F}

theorem decode_guarded {b : List UInt8} {f : DecodeFault} (h : (c.decode b).value = .error f)
    (hcode : f.report.code ∈ Envelope.guardCodes) : ∃ e, c.inspect b = .error e ∧ f = .envelope e := by
  cases f with
  | envelope e => exact ⟨e, decode_eq_envelope.1 h, rfl⟩
  | malformed m => exact absurd hcode m.code_unguarded
  | invalid v => exact absurd hcode v.code_unguarded

/-- What a codec sees of a payload that it cannot read: that it is too large, or that it is not well
formed, or else that it nests too deep. -/
def Unreadable (c : Codec F) (b : List UInt8) (depth : Nat) : Prop :=
  ∃ e, c.inspect b = .error e ∧
    if c.options.maxPayloadBytes.toNat < b.length then e = .tooLarge b.length c.options.maxPayloadBytes.toNat
    else e = .body .malformed ∨
      c.options.maxNestingDepth.toNat < depth ∧ e = .body (.tooDeep c.options.maxNestingDepth.toNat)

theorem unreadable_pack {body : List UInt8} {w : Tree} (h : Cbor.IsWritten w body) (hu : ¬ w.Untagged) :
    c.Unreadable (Envelope.pack body) w.depth := by
  by_cases hsize : c.options.maxPayloadBytes.toNat < (Envelope.pack body).length
  · exact ⟨_, Envelope.unpack_large c.options hsize, by rw [if_pos hsize]⟩
  have hlength := Envelope.length_lt (Nat.le_of_not_lt hsize)
  rcases h.read_tagged hu hlength c.options.maxNestingDepth.toNat with hread | ⟨hdepth, hread⟩
  · refine ⟨.body .malformed, ?_, by rw [if_neg hsize]; exact .inl rfl⟩
    rw [inspect, Envelope.unpack_pack, if_neg hsize, hread]
  · refine ⟨.body (.tooDeep _), ?_, by rw [if_neg hsize]; exact .inr ⟨hdepth, rfl⟩⟩
    rw [inspect, Envelope.unpack_pack, if_neg hsize, hread]

/-- What a codec encodes it sees again as far as its own limits let it, unless there are subtypes in
it. Decoding fails at a guard exactly where they do not let it, and with the same fault. -/
theorem inspect_encodeWith {write : Tree → List UInt8} {r : Response (Extension F)} {w : Tree} {b : List UInt8}
    (hw : r.toWire c.registry = .ok w) (hwritten : Cbor.IsWritten w (write w))
    (hb : (c.encodeWith write r).value = .ok b) :
    (w.Untagged → c.inspect b = Envelope.limited c.options b.length w.depth (.ok w.bare)) ∧
    (¬ w.Untagged → c.Unreadable b w.depth) ∧
    ∀ f, (c.decode b).value = .error f ∧ f.report.code ∈ Envelope.guardCodes ↔
      ∃ e, c.inspect b = .error e ∧ e.report.code ∈ Envelope.guardCodes ∧ f = .envelope e := by
  obtain ⟨u, hu, rfl⟩ := encodeWith_eq_ok.1 hb
  obtain rfl : w = u := Except.ok.inj (hw.symm.trans (wireOf_eq_ok.1 hu).2)
  refine ⟨fun huntagged => ?_, unreadable_pack hwritten, fun f => ⟨fun ⟨hf, hcode⟩ => ?_, ?_⟩⟩
  · have hbody := hwritten.isBody huntagged
    obtain ⟨fields, rfl⟩ := Response.toWire_object hw
    rw [← Tree.depth_bare]
    exact Envelope.unpack_limited fun hsize => hbody.read_eq (Envelope.length_lt hsize) _
  · obtain ⟨e, he, rfl⟩ := decode_guarded hf hcode
    exact ⟨e, he, hcode, rfl⟩
  · rintro ⟨e, he, hcode, rfl⟩
    exact ⟨decode_eq_envelope.2 he, hcode⟩

end Codec

theorem Response.greeting_kept : ∀ t ∈ greeting.supplied, t.Kept := by
  intro t ht
  obtain rfl : t = .array [.null, .int 0] := List.mem_singleton.1 ht
  simp

theorem Codec.inspect_encodeWith_greeting : ∃ b, (narrow.encodeWith Tree.toCbor Response.greeting).value = .ok b ∧
    narrow.inspect b = Envelope.limited narrow.options b.length Tree.greeting.depth (.ok Tree.greeting.bare) := by
  obtain ⟨hseen, -⟩ := inspect_encodeWith (c := narrow) (r := Response.greeting) (w := Tree.greeting) rfl
    (Cbor.isWritten_toCbor Tree.greeting_writable) rfl
  exact ⟨_, rfl, hseen Tree.greeting_isBody.untagged⟩

/-- An encoder that announces items and gives none. -/
def Binding.hollow : Binding .truth () where
  id := "vendor.Truth"
  encode _ := .ok (.array (List.replicate 300 .discarded))
  decode _ := .ok true

/-- The code under which a payload is not opened. -/
def Codec.refusal? {F : TypeFamily} (c : Codec F) (b : List UInt8) : Option String :=
  match c.inspect b with
  | .error e => some e.report.code
  | .ok _ => none

/-- The codec encodes a response without discarded values, and does not open the payload. -/
def Codec.RefusesOwn {F : TypeFamily} (c : Codec F) (r : Response (Extension F)) (code : String) : Prop :=
  (∀ t ∈ r.supplied, t.Kept) ∧ ∃ b, (c.encode r).value = .ok b ∧ c.refusal? b = some code

/-- Every guard can refuse what its codec encoded; the last one only where an encoder gives
discarded values. -/
theorem Codec.refusesOwn_greeting :
    RefusesOwn { registry := .truth, options := { maxPayloadBytes := 16 } } Response.greeting "payload_too_large" ∧
    RefusesOwn { registry := .truth, options := { maxNestingDepth := 4 } } Response.greeting "nesting_too_deep" ∧
    RefusesOwn { registry := ⟨[⟨(), .hollow⟩]⟩ } Response.greeting "declared_length_exceeds_payload" :=
  ⟨⟨Response.greeting_kept, _, rfl, by decide +kernel⟩, ⟨Response.greeting_kept, _, rfl, by decide +kernel⟩,
    ⟨Response.greeting_kept, _, rfl, by decide +kernel⟩⟩

end TurnCodec
