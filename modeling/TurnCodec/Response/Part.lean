import TurnCodec.Dict
import TurnCodec.Named
/-! Parts of a message: text and media. A file comes only with the input, and of
the texts only output carries metadata, whose values are of any type `E`. -/

namespace TurnCodec

inductive PartType
  | text
  | image
  | audio
  | video
  | file
deriving DecidableEq

namespace PartType

def name : PartType → String
  | text => "text"
  | image => "image"
  | audio => "audio"
  | video => "video"
  | file => "file"

instance : Named PartType where
  all := [text, image, audio, video, file]
  name := name
  mem_all := by intro a; cases a <;> decide
  name_injective := by intro a b; cases a <;> cases b <;> decide

end PartType

/-- How closely an image is looked at; `unspecified` leaves it to the model. -/
inductive ImageDetail
  | unspecified
  | high
  | low
  | auto
deriving DecidableEq

namespace ImageDetail

def name : ImageDetail → String
  | unspecified => ""
  | high => "high"
  | low => "low"
  | auto => "auto"

instance : Named ImageDetail where
  all := [unspecified, high, low, auto]
  name := name
  mem_all := by intro a; cases a <;> decide
  name_injective := by intro a b; cases a <;> cases b <;> decide

end ImageDetail

/-- Open metadata, by key. -/
abbrev Extra (E : Type) := Dict E

/-- Where the bytes of a medium are: at a url, inline in base 64, or both. -/
structure Media (E : Type) where
  url : Option String := none
  base64Data : Option String := none
  mimeType : String := ""
  extra : Extra E := ∅

inductive InputPart (E : Type)
  | text (content : String)
  | image (media : Media E) (detail : ImageDetail)
  | audio (media : Media E)
  | video (media : Media E)
  | file (media : Media E) (name : Option String)

inductive OutputPart (E : Type)
  | text (content : String) (extra : Extra E)
  | image (media : Media E)
  | audio (media : Media E)
  | video (media : Media E)

variable {E : Type}

def InputPart.type : InputPart E → PartType
  | text _ => .text
  | image _ _ => .image
  | audio _ => .audio
  | video _ => .video
  | file _ _ => .file

def OutputPart.type : OutputPart E → PartType
  | text _ _ => .text
  | image _ => .image
  | audio _ => .audio
  | video _ => .video

end TurnCodec
