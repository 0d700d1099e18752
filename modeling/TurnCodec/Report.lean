import TurnCodec.Named
/-! Reports: what a caller is told about a failure. The kind is what it can act
on, the code names the cause, and the hint may be empty. -/

namespace TurnCodec

inductive FaultKind
  | variantMismatch
  | unregisteredExtensionValue
  | unknownExtensionType
  | corruptPayload
  | unsupportedVersion
  | registrationConflict
  | input
  | internal
deriving DecidableEq

namespace FaultKind

def name : FaultKind → String
  | variantMismatch => "variant_mismatch"
  | unregisteredExtensionValue => "unregistered_extension_value"
  | unknownExtensionType => "unknown_extension_type"
  | corruptPayload => "corrupt_payload"
  | unsupportedVersion => "unsupported_version"
  | registrationConflict => "registration_conflict"
  | input => "input"
  | internal => "internal"

instance : Named FaultKind where
  all := [variantMismatch, unregisteredExtensionValue, unknownExtensionType, corruptPayload,
    unsupportedVersion, registrationConflict, input, internal]
  name := name
  mem_all := by intro a; cases a <;> decide
  name_injective := by intro a b; cases a <;> cases b <;> decide

end FaultKind

structure Report where
  kind : FaultKind
  message : String
  code : String := "unknown_error"
  hint : String := ""
deriving DecidableEq

/-- The same failure, its message led by where it happened. -/
def Report.under (r : Report) (place : String) : Report :=
  { r with message := place ++ r.message }

end TurnCodec
