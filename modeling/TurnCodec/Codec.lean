import TurnCodec.Cbor.Writer
import TurnCodec.Envelope
import TurnCodec.Response.Validation
import TurnCodec.Wire.Response
/-! The codec: responses to bytes and back, over a registry and options. A decoded
response is valid. Each call logs its outcome, and reading the fields it ignores. -/

namespace TurnCodec

structure Codec (F : TypeFamily) where
  registry : Registry F
  options : Options := {}

inductive EncodeFault
  | invalid (v : Violation)
  | unwritable (u : Unwritable)
deriving DecidableEq

inductive DecodeFault
  | envelope (e : Envelope.Fault)
  | malformed (m : Malformed)
  | invalid (v : Violation)
deriving DecidableEq

def EncodeFault.report : EncodeFault → Report
  | invalid v => v.report
  | unwritable u => u.report

def DecodeFault.report : DecodeFault → Report
  | envelope e => e.report
  | malformed m => m.report
  | invalid v => v.report

/-- A call that fails, and the warning that it leaves. -/
def refused {ε α : Type} (action : String) (report : ε → Report) (fault : ε) : Logged (Except ε α) := do
  Logged.tell .warn (action ++ " failed [" ++ (report fault).code ++ "]: " ++ (report fault).message)
  return .error fault

namespace Codec

variable {F : TypeFamily}

/-- The wire tree in a payload, its extension values as they were written. -/
def inspect (c : Codec F) (payload : List UInt8) : Except Envelope.Fault Tree :=
  Envelope.unpack c.options payload

/-- The wire tree of a response, validated first where the options ask for it. -/
def wireOf (c : Codec F) (r : Response (Extension F)) : Except EncodeFault Tree :=
  match if c.options.validateOnEncode then r.validate else .ok () with
  | .error v => .error (.invalid v)
  | .ok () =>
    match r.toWire c.registry with
    | .error u => .error (.unwritable u)
    | .ok w => .ok w

/-- Encodes a response, the body of its wire tree by `write`. -/
def encodeWith (write : Tree → List UInt8) (c : Codec F) (r : Response (Extension F)) :
    Logged (Except EncodeFault (List UInt8)) :=
  match c.wireOf r with
  | .error fault => refused "Encode" EncodeFault.report fault
  | .ok w => do
    let payload := Envelope.pack (write w)
    Logged.tell .debug ("Encoded response " ++ r.id ++ " (" ++ toString r.blocks.length ++ " blocks, " ++
      toString payload.length ++ " bytes)")
    return .ok payload

def encode (c : Codec F) (r : Response (Extension F)) : Logged (Except EncodeFault (List UInt8)) :=
  c.encodeWith Tree.toCbor r

def decode (c : Codec F) (payload : List UInt8) : Logged (Except DecodeFault (Response (Extension F))) :=
  match c.inspect payload with
  | .error e => refused "Decode" DecodeFault.report (.envelope e)
  | .ok w => do
    match ← Response.receive c.registry w with
    | .error m => refused "Decode" DecodeFault.report (.malformed m)
    | .ok r =>
      match r.validate with
      | .error v => refused "Decode" DecodeFault.report (.invalid v)
      | .ok () => do
        Logged.tell .debug ("Decoded response " ++ r.id ++ " (" ++ toString payload.length ++ " bytes)")
        return .ok r

end Codec

end TurnCodec
