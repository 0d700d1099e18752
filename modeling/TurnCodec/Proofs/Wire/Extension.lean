import TurnCodec.Proofs.Registry
import TurnCodec.Proofs.Wire.Fields
import TurnCodec.Wire.Extra
/-! Extension values on the wire: which record a value is written as, and which value a
record is read as. -/

namespace TurnCodec

variable {F : TypeFamily}

namespace Extension

variable {R : Registry F} {key id : String} {x : Extension F} {p w : Tree}

theorem toWire_plain {t : Tree} : toWire R key (plain t) = .ok w ↔ t ≠ .discarded ∧ record plainId t = w := by
  cases t <;> simp [toWire]

theorem toWire_typed {k : F.Key} {v : F.Value k} : toWire R key (typed k v) = .ok w ↔
    ∃ b p, R.byType? k = some b ∧ b.encode v = .ok p ∧ record b.id p = w := by
  rw [toWire]
  cases hb : R.byType? k with
  | none => simp
  | some b => cases hp : b.encode v <;> simp [hp]

theorem resolve_plain : resolve R key plainId p = .ok (plain p) := rfl

theorem resolve_typed {k : F.Key} {b : Binding F k} {v : F.Value k} (hid : id ≠ plainId)
    (hb : R.byId? id = some ⟨k, b⟩) (hv : b.decode p = .ok v) : resolve R key id p = .ok (typed k v) := by
  rw [resolve, if_neg hid, hb]
  simp only [hv]

theorem resolve_cases (h : resolve R key id p = .ok x) : (id = plainId ∧ x = plain p) ∨
    ∃ k b v, R.byId? id = some ⟨k, b⟩ ∧ b.decode p = .ok v ∧ x = typed k v := by
  unfold resolve at h
  split at h
  · exact .inl ⟨‹_›, (Except.ok.inj h).symm⟩
  · split at h
    · cases h
    · rename_i k b hb
      split at h
      · rename_i v hv
        exact .inr ⟨k, b, v, hb, hv, (Except.ok.inj h).symm⟩
      · cases h

theorem ofWire_record : ofWire R key (record id p) = resolve R key id p := rfl

/-- A record is read for its id and its payload alone. -/
theorem ofWire_eq_ok : ofWire R key w = .ok x ↔
    ∃ fs id p, w = .object fs ∧ fs.lookup "t" = some (.text id) ∧ fs.lookup "p" = some p ∧
      resolve R key id p = .ok x := by
  simp only [ofWire, bind_eq_ok, Tree.fieldsOf_eq_ok, Fields.text_eq_ok, Fields.required_eq_ok]
  constructor
  · rintro ⟨fs, hw, id, hid, p, hp, hx⟩
    exact ⟨fs, id, p, hw, hid, hp, hx⟩
  · rintro ⟨fs, id, p, hw, hid, hp, hx⟩
    exact ⟨fs, hw, id, hid, p, hp, hx⟩

end Extension

end TurnCodec
