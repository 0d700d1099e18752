import TurnCodec.Proofs.Cbor.Gap
import TurnCodec.Proofs.Payload
import TurnCodec.Proofs.Wire.Arguments
/-! Payloads in which the bytes of one text are overwritten by as many others. Nothing tells such a
payload from one that was encoded: it opens, and only what was overwritten is different. -/

namespace TurnCodec

open Bearing (map)

namespace Codec

variable {F : TypeFamily} {c : Codec F}

/-- In the place of a text in a body of `w`, another of its size is seen at its place in `w`. -/
theorem inspect_overwritten {place : Tree.Place} {front own other back body : List UInt8} {w : Tree}
    {fields : List (String × Tree)} (hbody : Cbor.IsBody w body) (htext : Cbor.TextAt place front own back body)
    (hlength : other.length = own.length)
    (hobject : w.edit (fun _ => .text (Text.ofBytes other)) place = .object fields)
    (hsize : (Envelope.pack body).length ≤ c.options.maxPayloadBytes.toNat)
    (hdepth : w.depth ≤ c.options.maxNestingDepth.toNat) :
    c.inspect (Envelope.pack (front ++ other ++ back)) = .ok (w.edit (fun _ => .text (Text.ofBytes other)) place) := by
  obtain ⟨x, y, hx, hy, rfl, hencode, hnests, htree⟩ := htext.overwrite hlength
  obtain ⟨rfl, hxdepth⟩ := hbody.of_encode hx (Envelope.length_lt hsize)
  have hsame : y.encode.length = x.encode.length := by
    rw [hencode, htext.bytes]
    simp [hlength]
  rw [← hencode, ← htree, inspect, Envelope.unpack_item_eq_ok hy]
  refine ⟨⟨?_, ?_⟩, Cbor.Item.isMap_iff.2 ⟨fields, htree.trans hobject⟩, rfl⟩
  · rwa [Envelope.length_pack, hsame]
  · omega

/-- Where the wire tree of a valid response is seen, an equal response is decoded. -/
theorem decode_seen {r : Response (Extension F)} {w : Tree} {b : List UInt8} (hR : c.registry.Reachable)
    (hF : c.registry.Restoring) (hvalid : r.validate = .ok ()) (hself : ∀ t ∈ r.supplied, (t == t) = true)
    (hw : r.toWire c.registry = .ok w) (hseen : c.inspect b = .ok w) :
    ∃ got, Response.ofWire c.registry w = .ok got ∧ (c.decode b).value = .ok got ∧ (got == r) = true := by
  obtain ⟨g, hg, heq⟩ := Response.ofWire_toWire_beq hR.sound hF hself hw
  have hstill : (map g r).validate = .ok () := by rwa [Response.validate_map]
  exact ⟨map g r, hg, decode_eq_ok.2 ⟨w, hseen, hg, hstill⟩, heq⟩

end Codec

/-- Two calls of one tool with the same arguments. -/
def Response.lookups : Response (Extension .truth) where
  id := "turn"
  blocks := [
    { type := .toolCall, payload := some (.toolCall { id := "a", name := "lookup", arguments := "[1]" }) },
    { type := .toolCall
      payload := some (.toolCall {
        id := "b", name := "lookup", arguments := "[1]", extra := Dict.empty.put "seen" (.typed () true) }) }]

/-- The wire tree of the two calls. -/
def Tree.lookups : Tree :=
  .object [
    ("blocks", .array [
      .object [
        ("tool_call", .object [
          ("arguments", .text "[1]"), ("id", .text "a"), ("name", .text "lookup"), ("type", .text "custom_tool_call")]),
        ("type", .text "tool_call")],
      .object [
        ("tool_call", .object [
          ("arguments", .text "[1]"),
          ("extra", .object [("seen", .object [("p", .bool true), ("t", .text "vendor.Truth")])]),
          ("id", .text "b"), ("name", .text "lookup"), ("type", .text "custom_tool_call")]),
        ("type", .text "tool_call")]]),
    ("id", .text "turn")]

theorem Tree.lookups_isBody : Cbor.IsBody Tree.lookups Tree.lookups.toCbor := by
  have kept : lookups.Kept := by
    simp +decide only [lookups, kept_object, kept_array, kept_bool, kept_text, List.forall_mem_cons, List.not_mem_nil,
      false_implies, implies_true, and_self, ascending_cons_cons, ascending_singleton]
  apply Cbor.isBody_toCbor (.of_length kept (by decide) (by decide +kernel))
  all_goals simp [Numeric, Untagged, All, lookups, nodes, itemNodes, fieldNodes]

end TurnCodec
