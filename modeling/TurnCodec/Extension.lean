import TurnCodec.Tree.Basic
/-! Extension values: open metadata that callers attach to content. A value is a
plain tree or a value of one of the caller's own types. -/

namespace TurnCodec

/-- The value types of a caller: a key for each, its values, their equality, and
the name that reports use. -/
structure TypeFamily where
  Key : Type
  [decEq : DecidableEq Key]
  Value : Key → Type
  same : (k : Key) → Value k → Value k → Bool
  name : Key → String

attribute [instance] TypeFamily.decEq

/-- The family of a caller without types of its own. -/
def TypeFamily.none : TypeFamily where
  Key := Empty
  Value := Empty.elim
  same k := k.elim
  name := Empty.elim

inductive Extension (F : TypeFamily) where
  | plain (t : Tree)
  | typed (k : F.Key) (v : F.Value k)

namespace Extension

/-- The type id of plain values on the wire; no type may take it. -/
def plainId : String := "json"

variable {F : TypeFamily}

instance : Inhabited (Extension F) := ⟨plain .null⟩

def isPlain : Extension F → Bool
  | plain _ => true
  | typed _ _ => false

/-- The tree of a plain value; null for a typed one. -/
def tree : Extension F → Tree
  | plain t => t
  | typed _ _ => .null

def key? : Extension F → Option F.Key
  | plain _ => .none
  | typed k _ => some k

def get? (x : Extension F) (k : F.Key) : Option (F.Value k) :=
  match x with
  | plain _ => .none
  | typed j v => if h : j = k then some (h ▸ v) else .none

/-- Values of different types differ, and so do a plain and a typed value. -/
def beq : Extension F → Extension F → Bool
  | plain a, plain b => a == b
  | typed j v, typed k w => if h : j = k then F.same k (h ▸ v) w else false
  | _, _ => false

instance : BEq (Extension F) := ⟨beq⟩

end Extension

end TurnCodec
