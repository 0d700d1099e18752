import TurnCodec.Cbor.Head
import TurnCodec.Text
import TurnCodec.Tree.Basic
/-! Tokens of a CBOR body: a scalar in full, the opening of an array or map, the stop that ends one
of unannounced length, or a tag. Integers and lengths are read at any width, floats of 16, 32 and 64
bits, booleans and null, and texts and byte strings in one piece or in pieces, which may come in
pieces again. A text may be any bytes. Other simple values are refused. -/

namespace TurnCodec.Cbor

/-- A container announces its number of entries, or none. -/
inductive Token
  | scalar (t : Tree)
  | array (count : Option Nat)
  | map (count : Option Nat)
  | stop
  | tag

/-- The greatest count that a head can hold stands for an unknown one. -/
def announced (n : Nat) : Option Nat := if n = 0xffffffffffffffff then none else some n

namespace Token

/-- What is in the pieces of strings, up to the stop that ends the outermost of `depth` open ones. -/
def pieces? (major : Nat) : Nat → Nat → List UInt8 → Option (List UInt8 × List UInt8)
  | _, 0, bs => some ([], bs)
  | fuel + 1, depth + 1, b :: bs =>
    if b = 0xff then pieces? major fuel depth bs
    else if b.toNat / 32 ≠ major then none
    else if b.toNat % 32 = 31 then pieces? major fuel (depth + 2) bs
    else do
      let (n, rest) ← argument? (b.toNat % 32) bs
      let (piece, rest) ← split? n rest
      let (more, rest) ← pieces? major fuel (depth + 1) rest
      return (piece ++ more, rest)
  | _, _, _ => none

/-- What is in a string; `info = 31` announces pieces. -/
def string? (major info : Nat) (bs : List UInt8) : Option (List UInt8 × List UInt8) :=
  if info = 31 then pieces? major bs.length 1 bs
  else do
    let (n, rest) ← argument? info bs
    split? n rest

/-- The announced number of entries; `info = 31` announces none. -/
def count? (info : Nat) (bs : List UInt8) : Option (Option Nat × List UInt8) :=
  if info = 31 then some (none, bs)
  else (argument? info bs).map fun (n, rest) => (announced n, rest)

def simple? (info : Nat) (bs : List UInt8) : Option (Token × List UInt8) :=
  match info with
  | 20 => some (scalar (.bool false), bs)
  | 21 => some (scalar (.bool true), bs)
  | 22 => some (scalar .null, bs)
  | 25 => (split? 2 bs).map fun (b, rest) => (scalar (.float (.ofBits16 (UInt16.ofNat (ofBe b)))), rest)
  | 26 => (split? 4 bs).map fun (b, rest) => (scalar (.float (.ofBits32 (UInt32.ofNat (ofBe b)))), rest)
  | 27 => (split? 8 bs).map fun (b, rest) => (scalar (.float ⟨UInt64.ofNat (ofBe b)⟩), rest)
  | 31 => some (stop, bs)
  | _ => none

/-- The first token and what follows it. -/
def read? : List UInt8 → Option (Token × List UInt8)
  | [] => none
  | b :: bs =>
    let info := b.toNat % 32
    match b.toNat / 32 with
    | 0 => (argument? info bs).map fun (n, rest) => (scalar (.int (.ofUInt64 (UInt64.ofNat n))), rest)
    | 1 => (argument? info bs).map fun (n, rest) => (scalar (.int (.complement (UInt64.ofNat n))), rest)
    | 2 => (string? 2 info bs).map fun (b, rest) => (scalar (.bytes b none), rest)
    | 3 => (string? 3 info bs).map fun (b, rest) => (scalar (.text (Text.ofBytes b)), rest)
    | 4 => (count? info bs).map fun (count, rest) => (array count, rest)
    | 5 => (count? info bs).map fun (count, rest) => (map count, rest)
    | 6 => (argument? info bs).map fun (_, rest) => (tag, rest)
    | _ => simple? info bs

end Token

end TurnCodec.Cbor
