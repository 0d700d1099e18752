import TurnCodec.Codec
import TurnCodec.Proofs.Cbor.Body
import TurnCodec.Proofs.Cbor.Kept
import TurnCodec.Proofs.Equality
import TurnCodec.Proofs.Validation
import TurnCodec.Proofs.Wire.Layout
/-! The codec from end to end. What one codec encodes, whatever writes the body, another
over the same registry reads back under limits that the payload keeps. -/

namespace TurnCodec

open Bearing

theorem Envelope.length_pack (body : List UInt8) : (pack body).length = body.length + 4 := rfl

/-- Under a limit of 64 bits a body has fewer bytes than the greatest count. -/
theorem Envelope.length_lt {body : List UInt8} {limit : UInt64} (h : (pack body).length ≤ limit.toNat) :
    body.length < 0xffffffffffffffff := by
  have := limit.toNat_lt
  rw [length_pack] at h
  omega

theorem Envelope.unpack_pack (o : Options) (body : List UInt8) : unpack o (pack body) =
    if o.maxPayloadBytes.toNat < (pack body).length then
      .error (.tooLarge (pack body).length o.maxPayloadBytes.toNat)
    else
      match Cbor.read o.maxNestingDepth.toNat body with
      | .error why => .error (.body why)
      | .ok (.object fields) => .ok (.object fields)
      | .ok _ => .error .notObject := rfl

theorem Envelope.kept_unpack {o : Options} {payload : List UInt8} {w : Tree} (h : unpack o payload = .ok w) : w.Kept := by
  simp only [unpack] at h
  split at h
  · cases h
  split at h
  · split at h
    · cases h
    split at h
    · cases h
    split at h
    · cases h
    · cases h
      exact Cbor.kept_read ‹_›
    · cases h
  · cases h

namespace Codec

variable {F : TypeFamily}

/-- Whatever the payload is, the tree that is seen in it is kept as programs keep trees. -/
theorem kept_inspect {c : Codec F} {payload : List UInt8} {w : Tree} (h : c.inspect payload = .ok w) : w.Kept :=
  Envelope.kept_unpack h

theorem wireOf_eq_ok {c : Codec F} {r : Response (Extension F)} {w : Tree} : c.wireOf r = .ok w ↔
    (c.options.validateOnEncode = true → r.validate = .ok ()) ∧ r.toWire c.registry = .ok w := by
  unfold wireOf
  cases hv : c.options.validateOnEncode with
  | false => cases r.toWire c.registry <;> simp
  | true => cases r.validate <;> cases r.toWire c.registry <;> simp

theorem encodeWith_eq_ok {write : Tree → List UInt8} {c : Codec F} {r : Response (Extension F)} {b : List UInt8} :
    (c.encodeWith write r).value = .ok b ↔ ∃ w, c.wireOf r = .ok w ∧ Envelope.pack (write w) = b := by
  unfold encodeWith
  cases c.wireOf r with
  | error fault => simp [refused]
  | ok w => simp

/-- What a payload is decoded to, whatever is logged: what is seen in it, read and validated. -/
theorem decode_value (c : Codec F) (b : List UInt8) : (c.decode b).value = do
    let w ← (c.inspect b).mapError .envelope
    let r ← (Response.ofWire c.registry w).mapError .malformed
    r.validate.mapError .invalid
    return r := by
  unfold decode
  cases c.inspect b with
  | error e => rfl
  | ok w =>
    have hvalue : (Response.receive c.registry w).value = Response.ofWire c.registry w := rfl
    simp only [Logged.value_bind, hvalue, mapError_ok, ok_bind]
    cases hr : Response.ofWire c.registry w with
    | error m => simp [refused]
    | ok r => cases hv : r.validate <;> simp [refused, hv]

theorem decode_eq_ok {c : Codec F} {b : List UInt8} {r : Response (Extension F)} : (c.decode b).value = .ok r ↔
    ∃ w, c.inspect b = .ok w ∧ Response.ofWire c.registry w = .ok r ∧ r.validate = .ok () := by
  simp only [decode_value, bind_eq_ok, mapError_eq_ok, pure_eq_ok, Except.ok.injEq]
  constructor
  · rintro ⟨w, hw, read, hread, _, hvalid, rfl⟩
    exact ⟨w, hw, hread, hvalid⟩
  · rintro ⟨w, hw, hread, hvalid⟩
    exact ⟨w, hw, r, hread, (), hvalid, rfl⟩

theorem decode_eq_envelope {c : Codec F} {b : List UInt8} {e : Envelope.Fault} :
    (c.decode b).value = .error (.envelope e) ↔ c.inspect b = .error e := by
  rw [decode_value]
  cases c.inspect b with
  | error e' => simp
  | ok w =>
    simp only [mapError_ok, ok_bind]
    cases Response.ofWire c.registry w with
    | error m => simp
    | ok r => cases hv : r.validate <;> simp [hv]

end Codec

/-- A value that was written reads back as an equal one, if its trees are equal to themselves. -/
theorem Extension.ofWire_toWire_beq {F : TypeFamily} {R : Registry F} (hR : R.Sound) (hF : R.Restoring) {key : String}
    {x : Extension F} {w : Tree} (hx : ∀ t, x.plain? = some t → (t == t) = true) (h : x.toWire R key = .ok w) :
    ∃ y, ofWire R key w = .ok y ∧ (y == x) = true := by
  cases x with
  | plain t =>
    obtain ⟨-, rfl⟩ := toWire_plain.1 h
    exact ⟨plain t, by rw [ofWire_record, resolve_plain], hx t rfl⟩
  | typed k v =>
    obtain ⟨b, p, hb, hp, rfl⟩ := toWire_typed.1 h
    have hmem := Registry.mem_of_byType? hb
    obtain ⟨u, hu, hsame⟩ := hF _ hmem v p hp
    refine ⟨typed k u, ?_, ?_⟩
    · rw [ofWire_record]
      exact resolve_typed (hR.unreserved _ hmem) (hR.byId?_of_byType? hb) hu
    · change (if h : k = k then F.same k (h ▸ u) v else false) = true
      rw [dif_pos rfl]
      exact hsame

/-- A response that was written reads back with an equal value in place of each. -/
theorem Response.ofWire_toWire_beq {F : TypeFamily} {R : Registry F} (hR : R.Sound) (hF : R.Restoring)
    {r : Response (Extension F)} {w : Tree} (ht : ∀ t ∈ r.supplied, (t == t) = true) (h : r.toWire R = .ok w) :
    ∃ g, ofWire R w = .ok (map g r) ∧ (map g r == r) = true := by
  obtain ⟨s, hs, rfl⟩ := map_eq_ok.1 h
  obtain ⟨hplain, hschemas⟩ := List.forall_mem_append.1 ht
  let g (key : String) (x : Extension F) : Extension F :=
    valueOf (Extension.ofWire R) key (valueOf (Extension.toWire R) key x)
  have back : ∀ e ∈ extras r, ∀ w, e.2.toWire R e.1 = .ok w →
      Extension.ofWire R e.1 w = .ok (g e.1 e.2) ∧ (g e.1 e.2 == e.2) = true := by
    intro e he w hw
    have hself : ∀ t, e.2.plain? = some t → (t == t) = true :=
      fun t ht => hplain t (List.mem_filterMap.2 ⟨e, he, ht⟩)
    obtain ⟨y, hy, heq⟩ := Extension.ofWire_toWire_beq hR hF hself hw
    have hg : g e.1 e.2 = y := by
      change valueOf _ _ (valueOf _ _ _) = y
      rw [valueOf_eq hw, valueOf_eq hy]
    rw [hg]
    exact ⟨hy, heq⟩
  refine ⟨g, ?_, beq_map (fun e he => ?_) hschemas⟩
  · rw [ofWire, readWire_layout]
    exact visit_visit (X := Response) hs fun e he w hw => (back e he w hw).1
  · obtain ⟨w, hw⟩ := ((visit_eq_ok (X := Response)).1 hs).1 e he
    exact (back e he w hw).2

theorem Response.toWire_object {F : TypeFamily} {R : Registry F} {r : Response (Extension F)} {w : Tree}
    (h : r.toWire R = .ok w) : ∃ fields, w = .object fields := by
  obtain ⟨s, -, rfl⟩ := map_eq_ok.1 h
  exact ⟨_, rfl⟩

namespace Codec

variable {F : TypeFamily}

/-- A body of the wire tree is seen as the tree, under limits that the payload keeps. -/
theorem inspect_pack {D : Codec F} {R : Registry F} {r : Response (Extension F)} {w : Tree} {body : List UInt8}
    (hw : r.toWire R = .ok w) (hbody : Cbor.IsBody w body)
    (hsize : (Envelope.pack body).length ≤ D.options.maxPayloadBytes.toNat)
    (hdepth : w.depth ≤ D.options.maxNestingDepth.toNat) : D.inspect (Envelope.pack body) = .ok w := by
  obtain ⟨fields, rfl⟩ := Response.toWire_object hw
  rw [inspect, Envelope.unpack_pack, if_neg (by omega), hbody.read_eq (Envelope.length_lt hsize), if_pos hdepth]

end Codec

/-- A valid message with a typed value and a plain one. -/
def Response.greeting : Response (Extension .truth) where
  id := "turn"
  blocks := [
    { type := .message
      payload := some (.message {
        content := .output [.text "hi" (Dict.empty.put "seen" (.typed () true))]
        extra := Dict.empty.put "trace" (.plain (.array [.null, .int 0])) }) }]

/-- The wire tree of the message. -/
def Tree.greeting : Tree :=
  .object [
    ("blocks", .array [.object [
      ("message", .object [
        ("extra", .object [("trace", .object [("p", .array [.null, .int 0]), ("t", .text "json")])]),
        ("output_parts", .array [.object [
          ("content", .text "hi"),
          ("extra", .object [("seen", .object [("p", .bool true), ("t", .text "vendor.Truth")])]),
          ("type", .text "text")]]),
        ("role", .text "user")]),
      ("type", .text "message")]]),
    ("id", .text "turn")]

theorem Tree.greeting_writable : Cbor.Writable Tree.greeting := by
  have kept : greeting.Kept := by
    simp +decide only [greeting, kept_object, kept_array, kept_null, kept_bool, kept_int, kept_text,
      List.forall_mem_cons, List.not_mem_nil, false_implies, implies_true, and_self, ascending_cons_cons,
      ascending_singleton]
  exact ⟨kept.clean, kept.ordered, by decide, by decide⟩

theorem Tree.greeting_isBody : Cbor.IsBody Tree.greeting Tree.greeting.toCbor := by
  apply Cbor.isBody_toCbor greeting_writable
  all_goals simp [Numeric, Untagged, All, greeting, nodes, itemNodes, fieldNodes]

/-- A codec that keeps the limits of a small device. -/
def Codec.narrow : Codec .truth := { registry := .truth, options := { maxPayloadBytes := 512, maxNestingDepth := 8 } }

end TurnCodec
