import TurnCodec.Registry
import TurnCodec.Response.Block
/-! Why a response cannot be written as a wire tree, and why a tree is not the
wire tree of a response. -/

namespace TurnCodec

/-- Why an extension value has no wire form. -/
inductive Unwritable
  | discarded (key : String)
  | unregistered (key typeName : String)
  | refused (key id : String) (why : Refusal)
deriving DecidableEq

def Unwritable.report : Unwritable → Report
  | discarded key =>
    ⟨.unregisteredExtensionValue, "Extension '" ++ key ++ "' holds a discarded JSON value.",
      "unrepresentable_extension_value", ""⟩
  | unregistered key typeName =>
    (Registry.unregisteredType typeName).under ("Extension '" ++ key ++ "': ")
  | refused key id (.because reason) =>
    ⟨.internal, "Extension '" ++ key ++ "' of type '" ++ id ++ "' failed to encode: " ++ reason,
      "extension_encode_failed", ""⟩
  | refused key id .silent =>
    ⟨.internal, "Extension '" ++ key ++ "' of type '" ++ id ++ "' failed to encode with a non-standard exception.",
      "extension_encode_failed", ""⟩

inductive Malformed
  | notObject (what : String)
  | notArray (what : String)
  | missing (key : String)
  | notText (key : String)
  | notBool (key : String)
  | notInteger (key : String)
  | outOfRange (key : String)
  | unknownTag (what name : String)
  | fileInOutput
  | contentForms (count : Nat)
  | bothOutputs (callId : String)
  | manyPayloads (type : BlockType)
  | unknownType (key id : String)
  | refused (key id : String) (why : Refusal)
deriving DecidableEq

/-- A tree that breaks the grammar, under the code of a corrupt payload. -/
def Report.corrupt (message : String) : Report := ⟨.corruptPayload, message, "corrupt_payload", ""⟩

def Malformed.report : Malformed → Report
  | notObject what => .corrupt ("Expected '" ++ what ++ "' to be an object.")
  | notArray what => .corrupt ("Expected '" ++ what ++ "' to be an array.")
  | missing key => .corrupt ("Missing field '" ++ key ++ "'.")
  | notText key => .corrupt ("Field '" ++ key ++ "' is not a string.")
  | notBool key => .corrupt ("Field '" ++ key ++ "' is not a boolean.")
  | notInteger key => .corrupt ("Field '" ++ key ++ "' is not an integer.")
  | outOfRange key => .corrupt ("Field '" ++ key ++ "' is out of range.")
  | unknownTag what name =>
    ⟨.corruptPayload, "Unknown " ++ what ++ " '" ++ name ++ "'.", "tag_out_of_range", ""⟩
  | fileInOutput => ⟨.corruptPayload, "Output parts cannot carry files.", "tag_out_of_range", ""⟩
  | contentForms count =>
    ⟨.variantMismatch, "Message must carry exactly one content representation, found " ++ toString count ++ ".",
      "message_content_mismatch", ""⟩
  | bothOutputs callId =>
    ⟨.variantMismatch, "Tool call output '" ++ callId ++ "' carries both outputs.", "multiple_tool_outputs", ""⟩
  | manyPayloads type =>
    ⟨.variantMismatch, "Content block of type " ++ type.name ++ " carries more than one payload.",
      "multiple_payloads", ""⟩
  | unknownType key id => (Registry.unknownId id).under ("Extension '" ++ key ++ "': ")
  | refused key id (.because reason) =>
    ⟨.corruptPayload, "Extension '" ++ key ++ "' of type '" ++ id ++ "' could not be decoded: " ++ reason,
      "extension_decode_failed", ""⟩
  | refused key id .silent =>
    ⟨.corruptPayload,
      "Extension '" ++ key ++ "' of type '" ++ id ++ "' could not be decoded: non-standard exception.",
      "extension_decode_failed", ""⟩

end TurnCodec
