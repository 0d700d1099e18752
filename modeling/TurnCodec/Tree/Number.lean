/-! Numbers of a tree: integers that fit in 64 bits, signed or unsigned, and
64-bit floats given by their bits. -/

namespace TurnCodec

/-- An integer of at most 64 bits, signed or unsigned. -/
structure Integer where
  val : Int
  lower : -0x8000000000000000 ≤ val
  upper : val < 0x10000000000000000
deriving DecidableEq

namespace Integer

def ofInt? (n : Int) : Option Integer :=
  if h : -0x8000000000000000 ≤ n ∧ n < 0x10000000000000000 then some ⟨n, h.1, h.2⟩ else none

def ofUInt64 (n : UInt64) : Integer :=
  ⟨n.toNat, Int.le_trans (by decide) (Int.natCast_nonneg _), Int.ofNat_lt.2 n.toNat_lt⟩

def ofInt64 (n : Int64) : Integer :=
  ⟨n.toInt, Int64.le_toInt n, Int.lt_trans (Int64.toInt_lt n) (by decide)⟩

def ofInt32 (n : Int32) : Integer :=
  ⟨n.toInt, Int.le_trans (by decide) (Int32.le_toInt n), Int.lt_trans (Int32.toInt_lt n) (by decide)⟩

/-- The complement `-1 - n` as a signed word holds it; below the signed range it wraps around. -/
def complement (n : UInt64) : Integer := ofInt64 (-1 - n.toInt64)

/-- `none` above the signed range. -/
def toInt64? (n : Integer) : Option Int64 :=
  if n.val < 0x8000000000000000 then some (Int64.ofInt n.val) else none

/-- `none` outside the signed 32-bit range. -/
def toInt32? (n : Integer) : Option Int32 :=
  if -0x80000000 ≤ n.val ∧ n.val < 0x80000000 then some (Int32.ofInt n.val) else none

instance : OfNat Integer 0 := ⟨⟨0, by decide, by decide⟩⟩
instance : Inhabited Integer := ⟨0⟩

@[ext]
theorem ext {m n : Integer} (h : m.val = n.val) : m = n := by
  cases m; cases n; cases h; rfl

theorem toInt64?_ofInt64 (n : Int64) : (ofInt64 n).toInt64? = some n := by
  have h : n.toInt < 0x8000000000000000 := Int64.toInt_lt n
  simp only [toInt64?, ofInt64, if_pos h, Int64.ofInt_toInt]

theorem toInt32?_ofInt32 (n : Int32) : (ofInt32 n).toInt32? = some n := by
  have h : -0x80000000 ≤ n.toInt ∧ n.toInt < 0x80000000 := ⟨Int32.le_toInt n, Int32.toInt_lt n⟩
  simp only [toInt32?, ofInt32, if_pos h, Int32.ofInt_toInt]

end Integer

/-- A float by its bits: sign, eleven bits of exponent, fifty-two of fraction. -/
structure Binary64 where
  bits : UInt64
deriving DecidableEq

namespace Binary64

/-- The bits without the sign. -/
def magnitude (x : Binary64) : UInt64 := x.bits &&& 0x7fffffffffffffff

def isNaN (x : Binary64) : Bool := 0x7ff0000000000000 < x.magnitude

/-- Equality as numbers: the two zeros are equal, and no value equals a NaN. -/
instance : BEq Binary64 :=
  ⟨fun x y => !x.isNaN && (x.bits == y.bits || (x.magnitude == 0 && y.magnitude == 0))⟩

/-- The bits of `m * 2 ^ (q - 1023)`, for `m` of at most 53 bits. -/
def normal (m q : Nat) : Nat :=
  if m = 0 then 0 else ((m.log2 + q) <<< 52) + ((m - (1 <<< m.log2)) <<< (52 - m.log2))

/-- The float with the value of the bits of a smaller format, `e` of them exponent and `f` fraction.
A subnormal becomes normal, its leading one moving into the exponent, and a NaN becomes quiet. -/
def widen (e f w : Nat) : Binary64 :=
  let sign := w >>> (e + f)
  let exponent := (w >>> f) % (1 <<< e)
  let fraction := w % (1 <<< f)
  let bias := 1024 - (1 <<< (e - 1))
  let magnitude :=
    if exponent + 1 = 1 <<< e then
      (2047 <<< 52) + if fraction = 0 then 0 else (fraction ||| (1 <<< (f - 1))) <<< (52 - f)
    else if exponent ≠ 0 then ((exponent + bias) <<< 52) + (fraction <<< (52 - f))
    else normal fraction (bias + 1 - f)
  ⟨UInt64.ofNat ((sign <<< 63) + magnitude)⟩

def ofBits32 (w : UInt32) : Binary64 := widen 8 23 w.toNat

/-- What a NaN is written as: quiet, positive, and with nothing else in it. -/
def nan : Binary64 := ⟨0x7ff8000000000000⟩

/-- A NaN keeps its sign and nothing else. -/
def ofBits16 (w : UInt16) : Binary64 :=
  if 0x7c00 < w.toNat % 0x8000 then ⟨UInt64.ofNat (((w.toNat >>> 15) <<< 63) + nan.bits.toNat)⟩ else widen 5 10 w.toNat

/-- The 32-bit float bits with the same value, if there are some. -/
def single? (x : Binary64) : Option UInt32 :=
  let exponent := x.magnitude.toNat >>> 52
  let fraction := x.magnitude.toNat % 0x10000000000000
  let magnitude :=
    if 897 ≤ exponent then ((exponent - 896) <<< 23) + (fraction >>> 29)
    else (0x10000000000000 + fraction) >>> (926 - exponent)
  let w := UInt32.ofNat (((x.bits.toNat >>> 63) <<< 31) + magnitude)
  if ofBits32 w = x then some w else none

/-- The float next to an integer, of two that are as near the even one. -/
def ofInteger (n : Integer) : Binary64 :=
  let m := n.val.natAbs
  let excess := m.log2 - 52
  let kept := m >>> excess
  let lost := m % (1 <<< excess)
  let rounded := if 1 <<< excess < 2 * lost ∨ (1 <<< excess = 2 * lost ∧ kept % 2 = 1) then kept + 1 else kept
  ⟨UInt64.ofNat ((if n.val < 0 then 1 <<< 63 else 0) + normal rounded (1023 + excess))⟩

end Binary64

end TurnCodec
