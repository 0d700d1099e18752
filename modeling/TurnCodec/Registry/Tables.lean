import Mathlib.Data.List.Basic
import TurnCodec.Wire.Response
/-! A registry as two hash tables, one by id and one by type, that one call fills together. A
descriptor knows its type as a key and no more: its encoder takes a value out of the wrapper
without looking at the type, and the tables are searched for whatever key is asked for. -/

namespace TurnCodec

/-- A type with its id and codec. -/
abbrev Descriptor (F : TypeFamily) := (k : F.Key) × Binding F k

namespace Descriptor

variable {F : TypeFamily}

/-- Encodes what is in the wrapper. There is no result if that is not of the type. -/
def encode? (d : Descriptor F) (x : Extension F) : Option (Except Refusal Tree) := (x.get? d.1).map d.2.encode

def decode (d : Descriptor F) (p : Tree) : Except Refusal (Extension F) := .typed d.1 <$> d.2.decode p

end Descriptor

structure Tables (F : TypeFamily) [Hashable F.Key] where
  byId : Std.HashMap String (Descriptor F) := ∅
  byType : Std.HashMap F.Key (Descriptor F) := ∅

namespace Tables

variable {F : TypeFamily} [Hashable F.Key]

instance : EmptyCollection (Tables F) := ⟨{}⟩

def ofId? (T : Tables F) (id : String) : Option (Descriptor F) := T.byId[id]?

def ofType? (T : Tables F) (k : F.Key) : Option (Descriptor F) := T.byType[k]?

def contains (T : Tables F) (id : String) : Bool := T.byId.contains id

def size (T : Tables F) : Nat := T.byId.size

/-- The bound ids, ascending. -/
def ids (T : Tables F) : List String := T.byId.keys.mergeSort

/-- What a call answers, and the tables that it leaves. -/
def insert (T : Tables F) (d : Descriptor F) : Logged (Except Conflict Unit × Tables F) :=
  if d.2.id.isEmpty then pure (.error .emptyId, T)
  else if d.2.id = Extension.plainId then pure (.error .reservedId, T)
  else
    match T.byId[d.2.id]? with
    | some held => pure (if held.1 = d.1 then .ok () else .error (.idTaken d.2.id), T)
    | none =>
      match T.byType[d.1]? with
      | some held => pure (.error (.typeTaken held.2.id d.2.id), T)
      | none => do
        let T : Tables F := { T with byType := T.byType.insertIfNew d.1 d }
        let T : Tables F := { T with byId := T.byId.insertIfNew d.2.id d }
        Logged.tell .info ("Registered extension type: " ++ d.2.id)
        return (.ok (), T)

/-- The tables after calls in order, whatever they answer. -/
def run (T : Tables F) (calls : List (Descriptor F)) : Tables F :=
  calls.foldl (fun T d => (T.insert d).value.2) T

/-- How writing ends early: at a value that has no wire form, or without any meaning, in an
encoder that reaches into a value of another type. -/
inductive Stop
  | unwritable (u : Unwritable)
  | undefined

/-- The record of the value under `key`. -/
def write (T : Tables F) (key : String) : Extension F → Except Stop Tree
  | .plain .discarded => .error (.unwritable (.discarded key))
  | .plain t => .ok (Extension.record Extension.plainId t)
  | .typed k v =>
    match T.ofType? k with
    | none => .error (.unwritable (.unregistered key (F.name k)))
    | some d =>
      match d.encode? (.typed k v) with
      | some (.ok p) => .ok (Extension.record d.2.id p)
      | some (.error why) => .error (.unwritable (.refused key d.2.id why))
      | none => .error .undefined

/-- The value of the record under `key`. -/
def read (T : Tables F) (key : String) (w : Tree) : Except Malformed (Extension F) := do
  let fs ← w.fieldsOf ("extra." ++ key)
  let id ← fs.text "t"
  let p ← fs.required "p"
  if id = Extension.plainId then .ok (.plain p)
  else
    match T.ofId? id with
    | none => .error (.unknownType key id)
    | some d => (d.decode p).mapError (.refused key id)

def toWire (T : Tables F) (r : Response (Extension F)) : Except Stop Tree := Response.layout <$> r.traverse T.write

def ofWire (T : Tables F) (w : Tree) : Except Malformed (Response (Extension F)) := Response.readWire T.read w

end Tables

end TurnCodec
