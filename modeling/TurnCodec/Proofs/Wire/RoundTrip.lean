import TurnCodec.Proofs.Metadata
import TurnCodec.Proofs.Wire.Extension
import TurnCodec.Proofs.Wire.Layout
/-! Reading back what was written. Each metadata value survives when decoders undo
encoders and the two look-ups of the registry undo each other; the rest of a
response is in its layout. -/

namespace TurnCodec

open Bearing

variable {F : TypeFamily} {R : Registry F}

theorem Extension.ofWire_of_toWire (hR : R.Sound) (hF : R.Faithful) {key : String} {x : Extension F} {w : Tree}
    (h : x.toWire R key = .ok w) : ofWire R key w = .ok x := by
  cases x with
  | plain t =>
    obtain ⟨-, rfl⟩ := toWire_plain.1 h
    rw [ofWire_record, resolve_plain]
  | typed k v =>
    obtain ⟨b, p, hb, hp, rfl⟩ := toWire_typed.1 h
    have hmem := hR.byType?_eq_some.1 hb
    rw [ofWire_record]
    exact resolve_typed (hR.unreserved _ hmem) (hR.byId?_of_byType? hb) (hF _ hmem v p hp)

/-- Whatever can be written is read back as it was: every field, every part and every
metadata value, whether or not the response is valid. -/
theorem Response.ofWire_toWire (hR : R.Reachable) (hF : R.Faithful) {r : Response (Extension F)} {w : Tree}
    (h : r.toWire R = .ok w) : ofWire R w = .ok r := by
  obtain ⟨s, hs, rfl⟩ := map_eq_ok.1 h
  have back : ∀ e ∈ extras r, ∀ w, e.2.toWire R e.1 = .ok w → Extension.ofWire R e.1 w = .ok e.2 :=
    fun e _ w hw => Extension.ofWire_of_toWire hR.sound hF hw
  rw [ofWire, readWire_layout]
  calc
    s.traverse (Extension.ofWire R) = .ok (map (fun _ x => x) r) := visit_visit (X := Response) hs back
    _ = .ok r := by rw [map_self]

/-- A message under the tag of a tool call, with a typed value and a plain one. -/
def Response.sample : Response (Extension .truth) where
  id := "turn"
  usage := some { input := 12, output := 3, total := 15 }
  blocks := [
    { type := .toolCall
      payload := some (.message {
        index := some 2
        content := .output [.text "hi" (Dict.empty.put "seen" (.typed () true)), .image { url := some "u" }]
        extra := Dict.empty.put "trace" (.plain (.array [.null, .int 0])) }) },
    { type := .reasoning }]

theorem Response.ofWire_toWire_sample :
    ∃ w, sample.toWire .truth = .ok w ∧ ofWire .truth w = .ok sample :=
  ⟨_, rfl, ofWire_toWire Registry.truth_reachable Registry.truth_faithful rfl⟩

end TurnCodec
