import TurnCodec.Extension
import TurnCodec.Log
import TurnCodec.Report
/-! The registry of extension types: it binds stable type ids to the value types
of a family, with the functions that turn values into trees and back. A type has
at most one id and an id at most one type; the first binding stays. -/

namespace TurnCodec

/-- Why an encoder or decoder gave up. -/
inductive Refusal
  | because (reason : String)
  | silent
deriving DecidableEq

/-- An id for the type `k` and its codec. -/
structure Binding (F : TypeFamily) (k : F.Key) where
  id : String
  encode : F.Value k → Except Refusal Tree
  decode : Tree → Except Refusal (F.Value k)

/-- Bindings in the order in which they were accepted. -/
structure Registry (F : TypeFamily) where
  bindings : List ((k : F.Key) × Binding F k)

/-- Why a binding is refused. -/
inductive Conflict
  | emptyId
  | reservedId
  | idTaken (id : String)
  | typeTaken (held id : String)
deriving DecidableEq

def Conflict.report : Conflict → Report
  | emptyId => ⟨.registrationConflict, "Extension type id cannot be empty.", "invalid_type_id", ""⟩
  | reservedId =>
    ⟨.registrationConflict, "Extension type id '" ++ Extension.plainId ++ "' is reserved.", "reserved_type_id",
      "Pick a namespaced id such as \"vendor.Status\"."⟩
  | idTaken id =>
    ⟨.registrationConflict, "Extension type id '" ++ id ++ "' is already bound to a different type.",
      "type_id_conflict", ""⟩
  | typeTaken held id =>
    ⟨.registrationConflict, "Type is already registered as '" ++ held ++ "', cannot also register it as '" ++ id ++ "'.",
      "type_already_registered", ""⟩

namespace Registry

variable {F : TypeFamily}

def empty : Registry F := ⟨[]⟩

instance : EmptyCollection (Registry F) := ⟨empty⟩
instance : Inhabited (Registry F) := ⟨empty⟩

def byId? (R : Registry F) (id : String) : Option ((k : F.Key) × Binding F k) :=
  R.bindings.find? (·.2.id == id)

def byType? (R : Registry F) (k : F.Key) : Option (Binding F k) :=
  R.bindings.findSome? fun b => if h : b.1 = k then some (h ▸ b.2) else none

def contains (R : Registry F) (id : String) : Bool := (R.byId? id).isSome

def size (R : Registry F) : Nat := R.bindings.length

/-- The bound ids, ascending. -/
def ids (R : Registry F) : List String :=
  (R.bindings.map (·.2.id)).mergeSort

/-- Repeating an accepted pair of id and type succeeds and changes nothing. -/
def register (R : Registry F) {k : F.Key} (b : Binding F k) : Logged (Except Conflict (Registry F)) :=
  if b.id.isEmpty then pure (.error .emptyId)
  else if b.id = Extension.plainId then pure (.error .reservedId)
  else
    match R.byId? b.id, R.byType? k with
    | some held, _ => pure (if held.1 = k then .ok R else .error (.idTaken b.id))
    | none, some held => pure (.error (.typeTaken held.id b.id))
    | none, none => do
      Logged.tell .info ("Registered extension type: " ++ b.id)
      return .ok ⟨R.bindings ++ [⟨k, b⟩]⟩

/-- What is said of an id that is not bound. -/
def unknownId (id : String) : Report :=
  ⟨.unknownExtensionType, "Extension type '" ++ id ++ "' is not registered.", "unknown_extension_type",
    "Register the type before decoding payloads that carry it."⟩

/-- What is said of a type that has no id. -/
def unregisteredType (name : String) : Report :=
  ⟨.unregisteredExtensionValue, "Extension value of type " ++ name ++ " has no registered type id.",
    "unregistered_extension_value", "Call TypeRegistry::register_type for this type."⟩

end Registry

end TurnCodec
