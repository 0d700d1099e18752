import TurnCodec.Dict
import TurnCodec.Tree.Number
/-! Trees: plain data with arrays and key-ordered objects. `==` compares integers by their
values, an integer with a float as floats, and finds nothing equal to a discarded value. -/

namespace TurnCodec

/-- Texts go by their bytes. A byte string may have a subtype, a number that tells what its bytes
are for. The fields of an object are its entries in key order. `discarded` marks the absence of a
value; it has no written form. -/
inductive Tree where
  | null
  | bool (b : Bool)
  | int (n : Integer)
  | float (x : Binary64)
  | text (s : String)
  | bytes (b : List UInt8) (subtype : Option UInt64)
  | array (items : List Tree)
  | object (fields : List (String × Tree))
  | discarded

namespace Tree

instance : Inhabited Tree := ⟨null⟩

mutual

def beq : Tree → Tree → Bool
  | null, null => true
  | bool a, bool b => a == b
  | int m, int n => m == n
  | float x, float y => x == y
  | int n, float y => .ofInteger n == y
  | float x, int n => x == .ofInteger n
  | text s, text t => s == t
  | bytes b m, bytes c n => b == c && m == n
  | array xs, array ys => beqItems xs ys
  | object fs, object gs => beqFields fs gs
  | _, _ => false

def beqItems : List Tree → List Tree → Bool
  | [], [] => true
  | x :: xs, y :: ys => beq x y && beqItems xs ys
  | _, _ => false

def beqFields : List (String × Tree) → List (String × Tree) → Bool
  | [], [] => true
  | (k, x) :: fs, (j, y) :: gs => k == j && beq x y && beqFields fs gs
  | _, _ => false

end

instance : BEq Tree := ⟨beq⟩

def ofInt64 (n : Int64) : Tree := .int (.ofInt64 n)

def ofInt32 (n : Int32) : Tree := .int (.ofInt32 n)

/-- The object of the fields that are present. -/
def record (fields : List (String × Option Tree)) : Tree :=
  .object (fields.filterMap fun (key, value) => value.map (key, ·))

end Tree

end TurnCodec
