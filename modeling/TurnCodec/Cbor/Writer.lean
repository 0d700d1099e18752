import TurnCodec.Cbor.Head
import TurnCodec.Text
import TurnCodec.Tree.Basic
/-! Writing a tree as CBOR, as the library does that writes for the codec: the shortest heads,
announced lengths, fields in key order, and a float in 32 bits if these hold it, or in 16 if it is an
infinity or a NaN. A byte string with a subtype has the subtype before it as a tag. A discarded
value leaves no bytes. The codec takes any writer; this one is for its runs. -/

namespace TurnCodec

namespace Cbor

def floatBytes (x : Binary64) : List UInt8 :=
  if x.isNaN then [0xf9, 0x7e, 0x00]
  else if x.magnitude = 0x7ff0000000000000 then [0xf9, if x.bits = x.magnitude then 0x7c else 0xfc, 0x00]
  else
    match x.single? with
    | some w => 0xfa :: be 4 w.toNat
    | none => 0xfb :: be 8 x.bits.toNat

/-- The head of a tag, which has bytes for its number even where it is small. -/
def tagHead (n : Nat) : List UInt8 :=
  if n < 0x100 then 0xd8 :: be 1 n
  else if n < 0x10000 then 0xd9 :: be 2 n
  else if n < 0x100000000 then 0xda :: be 4 n
  else 0xdb :: be 8 n

def tagBytes : Option UInt64 → List UInt8
  | none => []
  | some n => tagHead n.toNat

end Cbor

namespace Tree

mutual

def toCbor : Tree → List UInt8
  | null => [0xf6]
  | bool b => [if b then 0xf5 else 0xf4]
  | int n => if 0 ≤ n.val then Cbor.head 0 n.val.toNat else Cbor.head 1 (-1 - n.val).toNat
  | float x => Cbor.floatBytes x
  | text s => Cbor.head 3 s.length ++ Text.bytes s
  | bytes b subtype => Cbor.tagBytes subtype ++ (Cbor.head 2 b.length ++ b)
  | array items => Cbor.head 4 items.length ++ itemsToCbor items
  | object fields => Cbor.head 5 fields.length ++ fieldsToCbor fields
  | discarded => []

def itemsToCbor : List Tree → List UInt8
  | [] => []
  | x :: xs => toCbor x ++ itemsToCbor xs

def fieldsToCbor : List (String × Tree) → List UInt8
  | [] => []
  | (k, x) :: fs => Cbor.head 3 k.length ++ Text.bytes k ++ toCbor x ++ fieldsToCbor fs

end

end Tree

end TurnCodec
