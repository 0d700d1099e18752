import TurnCodec.Wire.Fault
/-! Reading the fields of an object. A required field must be there, an optional
one may be absent but not null, and each has one kind. -/

namespace TurnCodec

/-- The fields of an object, by key. -/
abbrev Fields := List (String × Tree)

namespace Tree

def fieldsOf (what : String) : Tree → Except Malformed Fields
  | object fields => .ok fields
  | _ => .error (.notObject what)

def itemsOf (what : String) : Tree → Except Malformed (List Tree)
  | array items => .ok items
  | _ => .error (.notArray what)

end Tree

namespace Fields

def has (fs : Fields) (key : String) : Bool := (fs.lookup key).isSome

def required (fs : Fields) (key : String) : Except Malformed Tree :=
  match fs.lookup key with
  | some value => .ok value
  | none => .error (.missing key)

def text (fs : Fields) (key : String) : Except Malformed String := do
  match ← fs.required key with
  | .text s => .ok s
  | _ => .error (.notText key)

def text? (fs : Fields) (key : String) : Except Malformed (Option String) :=
  if fs.has key then some <$> fs.text key else .ok none

def bool (fs : Fields) (key : String) : Except Malformed Bool := do
  match ← fs.required key with
  | .bool b => .ok b
  | _ => .error (.notBool key)

def integer (fs : Fields) (key : String) : Except Malformed Integer := do
  match ← fs.required key with
  | .int n => .ok n
  | _ => .error (.notInteger key)

/-- A signed 64-bit integer. -/
def count (fs : Fields) (key : String) : Except Malformed Int64 := do
  match (← fs.integer key).toInt64? with
  | some n => .ok n
  | none => .error (.outOfRange key)

/-- A signed 32-bit integer, or nothing. -/
def index? (fs : Fields) (key : String) : Except Malformed (Option Int32) :=
  if fs.has key then do
    match (← fs.integer key).toInt32? with
    | some n => .ok (some n)
    | none => .error (.outOfRange key)
  else .ok none

/-- The member of `α` that the text of a field names. -/
def tag (α : Type) [Named α] (fs : Fields) (key what : String) : Except Malformed α := do
  let name ← fs.text key
  match Named.parse? α name with
  | some a => .ok a
  | none => .error (.unknownTag what name)

def object (fs : Fields) (key : String) : Except Malformed Fields := do
  (← fs.required key).fieldsOf key

def array (fs : Fields) (key : String) : Except Malformed (List Tree) := do
  (← fs.required key).itemsOf key

end Fields

end TurnCodec
