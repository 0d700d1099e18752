import TurnCodec.Proofs.Equality
import TurnCodec.Proofs.Validation
import TurnCodec.Proofs.Wire.Acceptance
import TurnCodec.Proofs.Wire.Naturality
/-! Reading where no extension type is registered. Only records with the reserved id are read, and
only as plain values, so the types that a program could have registered do not matter. -/

namespace TurnCodec

open Bearing TurnCodec.Tree Fields

variable {F : TypeFamily}

namespace Extension

/-- The payload of a record with the reserved id. -/
def payloadOf (key : String) (w : Tree) : Except Malformed Tree := do
  let fs ← w.fieldsOf ("extra." ++ key)
  let id ← fs.text "t"
  let p ← fs.required "p"
  if id = plainId then .ok p else .error (.unknownType key id)

/-- A record with the reserved id and a payload. -/
def IsPlain : Tree → Prop := IsObject fun fs => fs.lookup "t" = some (.text "json") ∧ ∃ p, fs.lookup "p" = some p

theorem succeeds_payloadOf {key : String} {w : Tree} : Succeeds (payloadOf key w) ↔ IsPlain w := by
  have hid (id : String) (p : Tree) :
      Succeeds (if id = plainId then .ok p else .error (Malformed.unknownType key id)) ↔ id = "json" := by
    by_cases h : id = plainId
    · rw [if_pos h]
      exact iff_of_true (succeeds_ok p) h
    · rw [if_neg h]
      exact iff_of_false (not_succeeds_error _) h
  simp only [payloadOf, succeeds_bind, text_eq_ok, required_eq_ok, hid, exists_fieldsOf, IsPlain]
  refine isObject_congr fun fs => ?_
  constructor
  · rintro ⟨id, ht, p, hp, rfl⟩
    exact ⟨ht, p, hp⟩
  · rintro ⟨ht, p, hp⟩
    exact ⟨_, ht, p, hp, rfl⟩

theorem ofWire_empty (key : String) (w : Tree) : ofWire (∅ : Registry F) key w = plain <$> payloadOf key w := by
  refine after_changed _ fun fs => after_changed _ fun id => after_changed _ fun p => ?_
  by_cases hid : id = plainId
  · rw [resolve, if_pos hid, if_pos hid, map_ok]
  · rw [resolve, if_neg hid, if_neg hid, map_error]
    rfl

end Extension

namespace Response

theorem ofWire_empty (w : Tree) :
    ofWire (∅ : Registry F) w = map (fun _ => Extension.plain) <$> readWire Extension.payloadOf w :=
  readWire_map Extension.ofWire_empty w

theorem exists_ofWire_empty {w : Tree} :
    (∃ r, ofWire (∅ : Registry F) w = .ok r) ↔ IsObject (Shape Extension.IsPlain) w := by
  have hread (key : String) (w : Tree) : Succeeds (Extension.payloadOf key w) ↔ Extension.IsPlain w :=
    Extension.succeeds_payloadOf
  rw [ofWire_empty, exists_ok, succeeds_map]
  exact succeeds_readWire hread

theorem plain_of_ofWire_empty {w : Tree} {r : Response (Extension F)} (h : ofWire ∅ w = .ok r) :
    ∀ e ∈ extras r, e.2.isPlain = true := by
  rw [ofWire_empty] at h
  obtain ⟨s, -, rfl⟩ := map_eq_ok.1 h
  rw [extras_map]
  exact List.forall_mem_map.2 fun e he => rfl

theorem exists_valid_empty {w : Tree} :
    (∃ r : Response (Extension F), ofWire ∅ w = .ok r ∧ r.validate = .ok ()) ↔
      ∃ s, readWire Extension.payloadOf w = .ok s ∧ s.validate = .ok () := by
  rw [ofWire_empty]
  constructor
  · rintro ⟨r, hr, hvalid⟩
    obtain ⟨s, hs, rfl⟩ := map_eq_ok.1 hr
    exact ⟨s, hs, by rwa [validate_map] at hvalid⟩
  · rintro ⟨s, hs, hvalid⟩
    exact ⟨_, map_eq_ok.2 ⟨s, hs, rfl⟩, by rwa [validate_map]⟩

/-- Which trees read as valid responses does not depend on the family. -/
theorem exists_valid_empty_congr {F' : TypeFamily} {w : Tree} :
    (∃ r : Response (Extension F), ofWire ∅ w = .ok r ∧ r.validate = .ok ()) ↔
      ∃ r : Response (Extension F'), ofWire ∅ w = .ok r ∧ r.validate = .ok () :=
  exists_valid_empty.trans exists_valid_empty.symm

end Response

end TurnCodec
