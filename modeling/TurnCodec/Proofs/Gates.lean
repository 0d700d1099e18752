import TurnCodec.Proofs.Codec
import TurnCodec.Proofs.Wire.Contents
import TurnCodec.Proofs.Wire.RoundTrip
/-! The two gates of a codec. A response is valid or not on the wire as it is in memory, so a
decoder reports the violation that an encoder would have reported. -/

namespace TurnCodec

open Bearing

namespace Codec

variable {F : TypeFamily} {c : Codec F} {write : Tree → List UInt8} {r : Response (Extension F)} {w : Tree}
  {b : List UInt8}

/-- To decode what was encoded is to validate an equal response. -/
theorem decode_encodeWith (hR : c.registry.Reachable) (hF : c.registry.Restoring)
    (hr : ∀ t ∈ r.supplied, t.Clean ∧ t.Numeric) (hw : r.toWire c.registry = .ok w) (hbody : Cbor.IsBody w (write w))
    (hb : (c.encodeWith write r).value = .ok b) (hsize : b.length ≤ c.options.maxPayloadBytes.toNat)
    (hdepth : w.depth ≤ c.options.maxNestingDepth.toNat) :
    ∃ r', (r' == r) = true ∧ (c.decode b).value = (fun _ => r') <$> r.validate.mapError .invalid := by
  obtain ⟨u, hu, rfl⟩ := encodeWith_eq_ok.1 hb
  obtain rfl : w = u := Except.ok.inj (hw.symm.trans (wireOf_eq_ok.1 hu).2)
  have hself : ∀ t ∈ r.supplied, (t == t) = true := fun t ht => Tree.beq_self (hr t ht).1 (hr t ht).2
  obtain ⟨g, hread, heq⟩ := Response.ofWire_toWire_beq hR.sound hF hself hw
  have hseen : c.inspect (Envelope.pack (write w)) = .ok w := inspect_pack hw hbody hsize hdepth
  refine ⟨map g r, heq, ?_⟩
  rw [decode_value, hseen, mapError_ok, ok_bind, hread, mapError_ok, ok_bind, Response.validate_map]
  cases r.validate <;> rfl

theorem encodeWith_invalid {v : Violation} (hgate : c.options.validateOnEncode = true) (hv : r.validate = .error v) :
    (c.encodeWith write r).value = .error (.invalid v) := by
  have hwire : c.wireOf r = .error (.invalid v) := by rw [wireOf, if_pos hgate, hv]
  rw [encodeWith, hwire]
  rfl

end Codec

/-- What the writer gives for a response is a body of its wire tree, if its trees and those of the
encoders are written whole. -/
theorem Response.isBody_toWire {F : TypeFamily} {R : Registry F}
    (hE : ∀ d ∈ R.bindings, ∀ v p, d.2.encode v = .ok p → p.Kept ∧ p.Numeric ∧ p.Untagged)
    {r : Response (Extension F)} {w : Tree} (hw : r.toWire R = .ok w)
    (hr : ∀ t ∈ r.supplied, t.Kept ∧ t.Numeric ∧ t.Untagged) (hb : w.All Cbor.BytewiseHere)
    (hlength : w.toCbor.length < 2 ^ 64) : Cbor.IsBody w w.toCbor := by
  have hkept : w.Kept := (kept_toWire (fun d hd v p h => (hE d hd v p h).1) hw).2 fun t ht => (hr t ht).1
  have hnumeric : w.Numeric :=
    (toWire_all Tree.benign_numeric (fun d hd v p h => (hE d hd v p h).2.1) hw).2 fun t ht => (hr t ht).2.1
  have huntagged : w.Untagged :=
    (toWire_all Tree.benign_untagged (fun d hd v p h => (hE d hd v p h).2.2) hw).2 fun t ht => (hr t ht).2.2
  exact Cbor.isBody_toCbor (.of_length hkept hb hlength) hnumeric huntagged

/-- A codec that writes responses as they come. -/
def Codec.lenient : Codec .truth := { registry := .truth, options := { validateOnEncode := false } }

end TurnCodec
