/-! Heads of CBOR items (RFC 8949): a byte with the major type above and five bits
of information below, and up to eight big-endian bytes of argument. Heads are
written as short as they can be and read at any width. -/

namespace TurnCodec.Cbor

/-- `n` modulo `256 ^ k` as `k` big-endian bytes. -/
def be : Nat → Nat → List UInt8
  | 0, _ => []
  | k + 1, n => UInt8.ofNat (n >>> (8 * k)) :: be k n

/-- The number that big-endian bytes hold. -/
def ofBe (bs : List UInt8) : Nat := bs.foldl (fun n b => 256 * n + b.toNat) 0

/-- The first `n` bytes and the rest, if there are `n`. -/
def split? (n : Nat) (bs : List UInt8) : Option (List UInt8 × List UInt8) :=
  let first := bs.take n
  if first.length = n then some (first, bs.drop n) else none

/-- The head of major type `major` with argument `n`. -/
def head (major n : Nat) : List UInt8 :=
  if n < 24 then [UInt8.ofNat (32 * major + n)]
  else if n < 0x100 then UInt8.ofNat (32 * major + 24) :: be 1 n
  else if n < 0x10000 then UInt8.ofNat (32 * major + 25) :: be 2 n
  else if n < 0x100000000 then UInt8.ofNat (32 * major + 26) :: be 4 n
  else UInt8.ofNat (32 * major + 27) :: be 8 n

/-- The argument that `info` announces, and what follows it. -/
def argument? (info : Nat) (bs : List UInt8) : Option (Nat × List UInt8) :=
  if info < 24 then some (info, bs)
  else if info < 28 then (split? (1 <<< (info - 24)) bs).map fun (a, rest) => (ofBe a, rest)
  else none

theorem length_be (k n : Nat) : (be k n).length = k := by
  induction k with
  | zero => rfl
  | succ k ih => simp [be, ih]

theorem split?_append (as bs : List UInt8) : split? as.length (as ++ bs) = some (as, bs) := by
  simp [split?]

end TurnCodec.Cbor
