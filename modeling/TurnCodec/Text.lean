/-! Texts by their bytes. A text is a string with one character for each byte, the one with the
number of the byte; what characters the bytes may spell does not matter. -/

namespace TurnCodec.Text

/-- The text that consists of the bytes. -/
def ofBytes (b : List UInt8) : String := String.ofList (b.map fun c => Char.ofNat c.toNat)

def bytes (s : String) : List UInt8 := s.toList.map fun c => UInt8.ofNat c.toNat

/-- The text of a string of any characters, by its UTF-8 bytes. -/
def ofUtf8 (s : String) : String := ofBytes s.toUTF8.data.toList

/-- Whether every character stands for a byte. -/
def Bytewise (s : String) : Prop := ∀ c ∈ s.toList, c.toNat < 256

instance (s : String) : Decidable (Bytewise s) := List.decidableBAll (fun c : Char => c.toNat < 256) s.toList

theorem toNat_ofNat (c : UInt8) : (Char.ofNat c.toNat).toNat = c.toNat := by
  have valid : c.toNat.isValidChar := .inl (Nat.lt_trans c.toNat_lt (by decide))
  rw [Char.ofNat, dif_pos valid]
  rfl

theorem bytes_ofBytes (b : List UInt8) : bytes (ofBytes b) = b := by
  have each (c : UInt8) : UInt8.ofNat (Char.ofNat c.toNat).toNat = c := by rw [toNat_ofNat, UInt8.ofNat_toNat]
  simp [bytes, ofBytes, Function.comp_def, each]

theorem ofBytes_bytes {s : String} (h : Bytewise s) : ofBytes (bytes s) = s := by
  have each : ∀ c ∈ s.toList, Char.ofNat (UInt8.ofNat c.toNat).toNat = c := by
    intro c hc
    rw [UInt8.toNat_ofNat_of_lt' (h c hc), Char.ofNat_toNat]
  rw [ofBytes, bytes, List.map_map]
  exact (congrArg String.ofList ((List.map_congr_left each).trans (List.map_id' _))).trans String.ofList_toList

@[simp] theorem length_bytes (s : String) : (bytes s).length = s.length := by simp [bytes, String.length_toList]

end TurnCodec.Text
