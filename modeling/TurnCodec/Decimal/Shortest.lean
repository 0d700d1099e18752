import TurnCodec.Tree.Number
/-! The shortest decimal of a float: of the decimals that round to it, those with
the fewest digits, and of these the nearest. Seventeen digits always suffice. -/

namespace TurnCodec

/-- The number `digits * 10 ^ exponent`. -/
structure Decimal where
  digits : Nat
  exponent : Int
deriving DecidableEq

/-- The number `m * 2 ^ q`; the gap below it may be half the gap above. -/
structure Binary where
  m : Nat
  q : Int
  narrow : Bool

/-- The absolute value of a finite float. -/
def Binary.of (x : Binary64) : Binary :=
  let exponent : Nat := x.magnitude.toNat >>> 52
  let fraction := x.magnitude.toNat % 0x10000000000000
  if exponent = 0 then ⟨fraction, -1074, false⟩
  else ⟨0x10000000000000 + fraction, (exponent : Int) - 1075, fraction = 0 ∧ 1 < exponent⟩

/-- The number `10 ^ e * 2 ^ j`, a negative exponent taken for zero. -/
def Decimal.powers (e j : Int) : Nat := Nat.pow 10 e.toNat <<< j.toNat

/-- How `d` compares with `n * 2 ^ j`. -/
def Decimal.compareTo (d : Decimal) (n : Nat) (j : Int) : Ordering :=
  compare (d.digits * powers d.exponent (-j)) (n * powers (-d.exponent) j)

/-- Whether `d` rounds to `b`. The bounds, in quarters of a unit, round to `b` just
when it is even. -/
def Binary.covers (b : Binary) (d : Decimal) : Bool :=
  let below := d.compareTo (4 * b.m - if b.narrow then 1 else 2) (b.q - 2)
  let above := d.compareTo (4 * b.m + 2) (b.q - 2)
  let even := b.m % 2 = 0
  (below = .gt ∨ even ∧ below = .eq) ∧ (above = .lt ∨ even ∧ above = .eq)

/-- The greatest multiple of `10 ^ k` that is no greater than `b`. -/
def Binary.floor (b : Binary) (k : Int) : Decimal :=
  ⟨b.m * Decimal.powers (-k) b.q / Decimal.powers k (-b.q), k⟩

/-- The multiple of `10 ^ k` next to `b` that rounds to it, the nearer if both do. -/
def Binary.onGrid? (b : Binary) (k : Int) : Option Decimal :=
  let low := b.floor k
  let high : Decimal := ⟨low.digits + 1, k⟩
  let middle : Decimal := ⟨low.digits + high.digits, k⟩
  match b.covers low, b.covers high with
  | true, true => some (if middle.compareTo b.m (b.q + 1) = .lt then high else low)
  | true, false => some low
  | false, true => some high
  | false, false => none

/-- The least `e` with `b < 10 ^ e`, for `b` of a positive float. Three tenths of the
binary magnitude come near it from below. -/
def Binary.magnitude (b : Binary) : Int :=
  let start := ((b.m.log2 : Int) + b.q) * 3 / 10 - 3
  let exceeds (i : Nat) : Bool := (⟨1, start + i⟩ : Decimal).compareTo b.m b.q = .gt
  start + ((List.range 12).find? exceeds).getD 0

/-- The shortest decimal of a positive number. One digit may round up to ten. -/
def Binary.shortest (b : Binary) : Decimal :=
  let e := b.magnitude
  let grid (n : Nat) : Int := e - (n + 1)
  let d := ((List.range 17).findSome? fun n => b.onGrid? (grid n)).getD (b.floor (grid 16))
  if d.digits = 10 then ⟨1, d.exponent + 1⟩ else d

end TurnCodec
