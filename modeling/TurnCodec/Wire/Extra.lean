import TurnCodec.Wire.Fields
/-! Metadata on the wire. Each value is a record of a type id `t` and a payload
`p`; plain values have the reserved id. Empty metadata is not laid out. -/

namespace TurnCodec

variable {F : TypeFamily}

namespace Extension

def record (id : String) (payload : Tree) : Tree := .object [("p", payload), ("t", .text id)]

/-- The record of the value under `key`. -/
def toWire (R : Registry F) (key : String) : Extension F → Except Unwritable Tree
  | plain .discarded => .error (.discarded key)
  | plain t => .ok (record plainId t)
  | typed k v =>
    match R.byType? k with
    | .none => .error (.unregistered key (F.name k))
    | some b =>
      match b.encode v with
      | .ok p => .ok (record b.id p)
      | .error why => .error (.refused key b.id why)

/-- The value of a record with type id `id` and payload `p`. -/
def resolve (R : Registry F) (key id : String) (p : Tree) : Except Malformed (Extension F) :=
  if id = plainId then .ok (plain p)
  else
    match R.byId? id with
    | .none => .error (.unknownType key id)
    | some ⟨k, b⟩ =>
      match b.decode p with
      | .ok v => .ok (typed k v)
      | .error why => .error (.refused key id why)

def ofWire (R : Registry F) (key : String) (w : Tree) : Except Malformed (Extension F) := do
  let fs ← w.fieldsOf ("extra." ++ key)
  let id ← fs.text "t"
  let p ← fs.required "p"
  resolve R key id p

end Extension

namespace Extra

/-- The `extra` field for values that are laid out already. -/
def layout (x : Extra Tree) : Option Tree :=
  if x.isEmpty then none else some (.object x.entries)

/-- Reads the `extra` field among `fs`, each value by `read`. -/
def ofWire {E : Type} (read : String → Tree → Except Malformed E) (fs : Fields) : Except Malformed (Extra E) :=
  match fs.lookup "extra" with
  | none => .ok ∅
  | some w => do
    let records ← w.fieldsOf "extra"
    let values ← records.mapM fun (key, record) => return (key, ← read key record)
    return Dict.ofList values

end Extra

end TurnCodec
