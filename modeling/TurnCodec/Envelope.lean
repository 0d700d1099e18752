import TurnCodec.Cbor.Reader
import TurnCodec.Report
/-! The envelope of an encoded response: a marker of three bytes, a version, and
a body. It is opened under limits on its size and on the nesting of its body. -/

namespace TurnCodec

structure Options where
  validateOnEncode : Bool := true
  maxPayloadBytes : UInt64 := 67108864
  maxNestingDepth : UInt64 := 512
deriving DecidableEq

namespace Envelope

/-- The letters AGR. -/
def marker : List UInt8 := [0x41, 0x47, 0x52]

def version : UInt8 := 1

/-- Why an envelope is not opened. -/
inductive Fault
  | tooLarge (size limit : Nat)
  | shortHeader
  | noMarker
  | otherVersion (found : UInt8)
  | body (why : Cbor.Rejection)
  | notObject
deriving DecidableEq

def Fault.report : Fault → Report
  | tooLarge size limit =>
    ⟨.corruptPayload, "Payload of " ++ toString size ++ " bytes exceeds the configured limit of " ++ toString limit ++ ".",
      "payload_too_large", ""⟩
  | shortHeader => ⟨.corruptPayload, "Payload is shorter than the format header.", "truncated_header", ""⟩
  | noMarker => ⟨.corruptPayload, "Payload does not start with the response format marker.", "bad_magic", ""⟩
  | otherVersion found =>
    ⟨.unsupportedVersion,
      "Payload format version " ++ toString found ++ " is not supported (expected " ++ toString version ++ ").",
      "unsupported_version", "Decode with a build that understands this version."⟩
  | body .malformed => ⟨.corruptPayload, "Payload body is not valid CBOR", "corrupt_payload", ""⟩
  | body (.tooDeep limit) =>
    ⟨.corruptPayload, "Payload body nests deeper than " ++ toString limit ++ " levels.", "nesting_too_deep", ""⟩
  | body (.tooMany announced size) =>
    ⟨.corruptPayload,
      "Container declares " ++ toString announced ++ " entries in a body of " ++ toString size ++ " bytes.",
      "declared_length_exceeds_payload", ""⟩
  | notObject => ⟨.corruptPayload, "Payload body is not an object.", "corrupt_payload", ""⟩

/-- Puts a body into an envelope. -/
def pack (body : List UInt8) : List UInt8 := marker ++ version :: body

/-- The tree in an envelope, an object. -/
def unpack (o : Options) (payload : List UInt8) : Except Fault Tree :=
  let limit := o.maxPayloadBytes.toNat
  if limit < payload.length then .error (.tooLarge payload.length limit)
  else
    match payload with
    | a :: b :: c :: found :: body =>
      if [a, b, c] ≠ marker then .error .noMarker
      else if found ≠ version then .error (.otherVersion found)
      else
        match Cbor.read o.maxNestingDepth.toNat body with
        | .error why => .error (.body why)
        | .ok (.object fields) => .ok (.object fields)
        | .ok _ => .error .notObject
    | _ => .error .shortHeader

end Envelope

end TurnCodec
