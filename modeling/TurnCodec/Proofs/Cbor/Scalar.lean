import TurnCodec.Cbor.Writer
import TurnCodec.Proofs.Cbor.Item
/-! The items that the writer gives for numbers. An integer is read back as it is, and a float too,
but for a NaN, of which only that it is one is written. -/

namespace TurnCodec

namespace Integer

theorem ofUInt64_ofNat {i : Integer} (h : 0 ≤ i.val) : ofUInt64 (UInt64.ofNat i.val.toNat) = i := by
  have := i.upper
  have hn : (UInt64.ofNat i.val.toNat).toNat = i.val.toNat := UInt64.toNat_ofNat_of_lt' (by show _ < 2 ^ 64; omega)
  apply Integer.ext
  change ((UInt64.ofNat i.val.toNat).toNat : Int) = i.val
  rw [hn]
  omega

theorem val_complement (n : UInt64) : (complement n).val = (-1 - n.toInt64).toInt := by
  rw [complement, ofInt64]

theorem complement_ofNat {i : Integer} (h : i.val < 0) : complement (UInt64.ofNat (-1 - i.val).toNat) = i := by
  have := i.lower
  have hn : (Int64.ofNat (-1 - i.val).toNat).toInt = ((-1 - i.val).toNat : Int) := Int64.toInt_ofNat_of_lt (by omega)
  apply Integer.ext
  rw [val_complement, UInt64.toInt64_ofNat', Int64.toInt_sub, hn, show (-1 : Int64).toInt = -1 from rfl,
    show -1 - ((-1 - i.val).toNat : Int) = i.val by omega]
  exact Int.bmod_eq_of_le (by omega) (by omega)

end Integer

namespace Binary64

/-- What is written of a float. -/
def written (x : Binary64) : Binary64 := if x.isNaN then nan else x

/-- A float is told by its magnitude and sign. -/
theorem eq_of_magnitude {x : Binary64} {m : UInt64} (h : x.magnitude = m) :
    x.bits = m ∨ x.bits = m + 0x8000000000000000 := by
  have hmod : x.bits.toNat % 2 ^ 63 = m.toNat := by
    rw [← h, magnitude, UInt64.toNat_and]
    exact (Nat.and_two_pow_sub_one_eq_mod _ 63).symm
  have hlt := x.bits.toNat_lt
  by_cases hsign : x.bits.toNat < 2 ^ 63
  · left
    apply UInt64.toNat_inj.1
    omega
  · right
    apply UInt64.toNat_inj.1
    rw [UInt64.toNat_add, show (0x8000000000000000 : UInt64).toNat = 2 ^ 63 from rfl]
    omega

end Binary64

namespace Cbor.Item

/-- The item of an integer, its argument at the least width. -/
def ofInteger (i : Integer) : Item :=
  if 0 ≤ i.val then .natural (.least i.val.toNat) (UInt64.ofNat i.val.toNat)
  else .negative (.least (-1 - i.val).toNat) (UInt64.ofNat (-1 - i.val).toNat)

/-- The item of a float in the format that the writer takes. -/
def ofFloat (x : Binary64) : Item :=
  if x.isNaN then .half 0x7e00
  else if x.magnitude = 0x7ff0000000000000 then .half (if x.bits = x.magnitude then 0x7c00 else 0xfc00)
  else
    match x.single? with
    | some w => .single w
    | none => .double x

theorem ofInteger_cases {P : Item → Prop} (natural : ∀ w n, P (.natural w n)) (negative : ∀ w n, P (.negative w n))
    (i : Integer) : P (ofInteger i) := by
  unfold ofInteger
  split
  · exact natural _ _
  · exact negative _ _

theorem ofFloat_cases {P : Item → Prop} (half : ∀ w, P (.half w)) (single : ∀ w, P (.single w))
    (double : ∀ x, P (.double x)) (x : Binary64) : P (ofFloat x) := by
  unfold ofFloat
  split
  · exact half _
  split
  · exact half _
  split
  · exact single _
  · exact double _

/-- The argument of either head is one of 64 bits. -/
theorem toNat_argument (i : Integer) : (UInt64.ofNat i.val.toNat).toNat = i.val.toNat ∧
    (UInt64.ofNat (-1 - i.val).toNat).toNat = (-1 - i.val).toNat := by
  have := i.lower
  have := i.upper
  exact ⟨UInt64.toNat_ofNat_of_lt' (by show _ < 2 ^ 64; omega), UInt64.toNat_ofNat_of_lt' (by show _ < 2 ^ 64; omega)⟩

theorem tree_ofInteger (i : Integer) : (ofInteger i).tree = .int i := by
  unfold ofInteger
  split
  · rw [tree, Integer.ofUInt64_ofNat ‹_›]
  · rw [tree, Integer.complement_ofNat (by omega)]

theorem encode_ofInteger (i : Integer) : (ofInteger i).encode =
    if 0 ≤ i.val then Cbor.head 0 i.val.toNat else Cbor.head 1 (-1 - i.val).toNat := by
  obtain ⟨hnatural, hnegative⟩ := toNat_argument i
  unfold ofInteger
  split
  · rw [encode, spellings, spelled, List.flatMap_singleton, Spelling.natural, hnatural, Width.head_least]
  · rw [encode, spellings, spelled, List.flatMap_singleton, Spelling.negative, hnegative, Width.head_least]

theorem fits_ofInteger (i : Integer) : (ofInteger i).FitsHere := by
  obtain ⟨hnatural, hnegative⟩ := toNat_argument i
  have := i.lower
  have := i.upper
  unfold ofInteger
  split
  · rw [FitsHere, hnatural]
    exact Width.fits_least (by omega)
  · rw [FitsHere, hnegative]
    exact Width.fits_least (by omega)

theorem tree_ofFloat (x : Binary64) : (ofFloat x).tree = .float x.written := by
  unfold ofFloat Binary64.written
  split
  · rfl
  split
  · -- an infinity, of which the half has the sign
    rename_i hinfinite
    obtain ⟨bits⟩ := x
    rw [hinfinite]
    rcases Binary64.eq_of_magnitude hinfinite with hbits | hbits
    · obtain rfl : bits = 0x7ff0000000000000 := hbits
      rfl
    · obtain rfl : bits = 0xfff0000000000000 := hbits
      rfl
  split
  · rename_i w hw
    unfold Binary64.single? at hw
    simp only [Option.ite_none_right_eq_some] at hw
    obtain ⟨hbits, hw⟩ := hw
    rw [tree, ← hbits, ← Option.some.inj hw]
  · rfl

theorem encode_ofFloat (x : Binary64) : (ofFloat x).encode = Cbor.floatBytes x := by
  unfold ofFloat Cbor.floatBytes
  split
  · rfl
  split
  · split <;> rfl
  cases x.single? with
  | some w => exact List.flatMap_singleton Spelling.bytes (Spelling.single w)
  | none => exact List.flatMap_singleton Spelling.bytes (Spelling.double x)

theorem fits_ofFloat (x : Binary64) : (ofFloat x).FitsHere :=
  ofFloat_cases (P := FitsHere) (fun _ => trivial) (fun _ => trivial) (fun _ => trivial) x

end Cbor.Item

end TurnCodec
