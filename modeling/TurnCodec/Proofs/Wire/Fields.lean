import TurnCodec.Proofs.Ascending
import TurnCodec.Proofs.Outcome
import TurnCodec.Wire.Block
/-! What the readers of fields accept, and what a record holds under each key. -/

namespace TurnCodec

namespace Integer

theorem eq_ofInt64 {i : Integer} {n : Int64} (h : i.toInt64? = some n) : i = ofInt64 n := by
  unfold toInt64? at h
  split at h
  · rename_i hi
    cases h
    exact Integer.ext (Int64.toInt_ofInt_of_le i.lower hi).symm
  · cases h

theorem eq_ofInt32 {i : Integer} {n : Int32} (h : i.toInt32? = some n) : i = ofInt32 n := by
  unfold toInt32? at h
  split at h
  · rename_i hi
    cases h
    exact Integer.ext (Int32.toInt_ofInt_of_le hi.1 hi.2).symm
  · cases h

end Integer

namespace Tree

theorem fieldsOf_eq_ok {what : String} {t : Tree} {fs : Fields} : t.fieldsOf what = .ok fs ↔ t = .object fs := by
  cases t <;> simp [fieldsOf]

theorem itemsOf_eq_ok {what : String} {t : Tree} {items : List Tree} :
    t.itemsOf what = .ok items ↔ t = .array items := by
  cases t <;> simp [itemsOf]

/-- The fields of a record, those that are absent left out. -/
def present (fields : List (String × Option Tree)) : Fields :=
  fields.filterMap fun (key, value) => value.map (key, ·)

theorem record_eq (fields : List (String × Option Tree)) : record fields = .object (present fields) := rfl

theorem mem_present {fields : List (String × Option Tree)} {e : String × Tree} :
    e ∈ present fields ↔ (e.1, some e.2) ∈ fields := by
  simp only [present, List.mem_filterMap, Option.map_eq_some_iff]
  constructor
  · rintro ⟨⟨key, value⟩, he, t, rfl, rfl⟩
    exact he
  · intro he
    exact ⟨_, he, e.2, rfl, rfl⟩

/-- Keys that come once find what stands under them. -/
theorem lookup_present {fields : List (String × Option Tree)} (h : (fields.map (·.1)).Nodup) (key : String) :
    (present fields).lookup key = (fields.lookup key).join := by
  induction fields with
  | nil => rfl
  | cons e fields ih =>
    obtain ⟨k, value⟩ := e
    obtain ⟨hk, hfields⟩ := List.nodup_cons.1 h
    rw [lookup_entry]
    cases value with
    | some t =>
      rw [show present ((k, some t) :: fields) = (k, t) :: present fields from rfl, lookup_entry, ih hfields]
      split <;> rfl
    | none =>
      rw [show present ((k, none) :: fields) = present fields from rfl]
      split
      · rename_i hkey
        subst hkey
        apply lookup_eq_none
        intro e he hkey
        apply hk
        exact List.mem_map.2 ⟨_, mem_present.1 he, hkey⟩
      · exact ih hfields

theorem ascending_present {fields : List (String × Option Tree)} (h : Ascending fields) :
    Ascending (present fields) := by
  rw [present, Ascending, List.pairwise_filterMap]
  apply h.imp
  intro e d hlt t ht u hu
  obtain ⟨_, -, rfl⟩ := Option.map_eq_some_iff.1 ht
  obtain ⟨_, -, rfl⟩ := Option.map_eq_some_iff.1 hu
  exact hlt

theorem of_record {fields : List (String × Option Tree)} {w : Tree} (hw : record fields = w)
    (h : (fields.map (·.1)).Nodup) : ∃ fs, w = .object fs ∧ ∀ key, fs.lookup key = (fields.lookup key).join :=
  ⟨present fields, hw.symm, lookup_present h⟩

end Tree

namespace Fields

variable {fs : Fields} {key : String}

theorem required_eq_ok {t : Tree} : fs.required key = .ok t ↔ fs.lookup key = some t := by
  unfold required
  cases fs.lookup key <;> simp

theorem text_eq_ok {s : String} : fs.text key = .ok s ↔ fs.lookup key = some (.text s) := by
  unfold text
  rw [bind_eq_ok]
  simp only [required_eq_ok]
  constructor
  · rintro ⟨t, ht, hs⟩
    cases t <;> simp_all
  · intro h
    exact ⟨_, h, rfl⟩

theorem text?_eq_ok {s : Option String} : fs.text? key = .ok s ↔ fs.lookup key = s.map .text := by
  unfold text? has
  cases h : fs.lookup key with
  | none => cases s <;> simp
  | some t =>
    simp only [Option.isSome_some, if_true, map_eq_ok, text_eq_ok, h]
    cases s <;> simp

theorem bool_eq_ok {b : Bool} : fs.bool key = .ok b ↔ fs.lookup key = some (.bool b) := by
  unfold bool
  rw [bind_eq_ok]
  simp only [required_eq_ok]
  constructor
  · rintro ⟨t, ht, hs⟩
    cases t <;> simp_all
  · intro h
    exact ⟨_, h, rfl⟩

theorem integer_eq_ok {n : Integer} : fs.integer key = .ok n ↔ fs.lookup key = some (.int n) := by
  unfold integer
  rw [bind_eq_ok]
  simp only [required_eq_ok]
  constructor
  · rintro ⟨t, ht, hs⟩
    cases t <;> simp_all
  · intro h
    exact ⟨_, h, rfl⟩

theorem count_eq_ok {n : Int64} : fs.count key = .ok n ↔ fs.lookup key = some (.ofInt64 n) := by
  unfold count
  simp only [bind_eq_ok, integer_eq_ok]
  constructor
  · rintro ⟨i, hi, hn⟩
    split at hn
    · rename_i m hm
      rw [hi, Integer.eq_ofInt64 hm, ← Except.ok.inj hn]
      rfl
    · cases hn
  · intro h
    exact ⟨_, h, by simp [Integer.toInt64?_ofInt64]⟩

theorem index?_eq_ok {i : Option Int32} : fs.index? key = .ok i ↔ fs.lookup key = i.map .ofInt32 := by
  unfold index? has
  cases h : fs.lookup key with
  | none => cases i <;> simp
  | some t =>
    simp only [Option.isSome_some, if_true, bind_eq_ok, integer_eq_ok, h]
    constructor
    · rintro ⟨n, hn, hi⟩
      split at hi
      · rename_i m hm
        rw [hn, Integer.eq_ofInt32 hm, ← Except.ok.inj hi]
        rfl
      · cases hi
    · intro hi
      cases i with
      | none => cases hi
      | some m => exact ⟨_, hi, by simp [Integer.toInt32?_ofInt32]⟩

theorem tag_eq_ok {α : Type} [Named α] {what : String} {a : α} :
    fs.tag α key what = .ok a ↔ fs.lookup key = some (.text (Named.name a)) := by
  unfold tag
  simp only [bind_eq_ok, text_eq_ok]
  constructor
  · rintro ⟨name, hname, ha⟩
    split at ha
    · rename_i b hb
      rw [hname, Named.parse?_eq_some_iff.1 hb, ← Except.ok.inj ha]
    · cases ha
  · intro h
    exact ⟨_, h, by rw [Named.parse?_name]⟩

theorem object_eq_ok {gs : Fields} : fs.object key = .ok gs ↔ fs.lookup key = some (.object gs) := by
  simp [object, bind_eq_ok, required_eq_ok, Tree.fieldsOf_eq_ok]

theorem array_eq_ok {items : List Tree} : fs.array key = .ok items ↔ fs.lookup key = some (.array items) := by
  simp [array, bind_eq_ok, required_eq_ok, Tree.itemsOf_eq_ok]

end Fields

theorem Block.mem_payloadFields {fs : Fields} {held : BlockType} {w : Tree} :
    (held, w) ∈ payloadFields fs ↔ fs.lookup held.name = some w := by
  simp only [payloadFields, List.mem_filterMap, Option.map_eq_some_iff, Prod.mk.injEq]
  constructor
  · rintro ⟨_, -, _, hw, rfl, rfl⟩
    exact hw
  · intro hw
    exact ⟨held, Named.mem_all held, w, hw, rfl, rfl⟩

end TurnCodec
