import TurnCodec.Response.Part
import TurnCodec.Wire.Extra
/-! Message parts on the wire: the field `type` tells which part it is. A layout
takes metadata whose values are trees already; reading takes a reader for them. -/

namespace TurnCodec

/-- A part with media. `detail` belongs to input images and `name` to files. -/
def Media.layout (m : Media Tree) (type : PartType) (detail name : Option Tree) : Tree :=
  .record [
    ("base64_data", m.base64Data.map .text),
    ("detail", detail),
    ("extra", m.extra.layout),
    ("mime_type", some (.text m.mimeType)),
    ("name", name),
    ("type", some (.text type.name)),
    ("url", m.url.map .text)]

/-- An unspecified detail is not laid out. -/
def ImageDetail.layout (d : ImageDetail) : Option Tree :=
  if d = .unspecified then none else some (.text d.name)

def InputPart.layout : InputPart Tree → Tree
  | text content => .object [("content", .text content), ("type", .text PartType.text.name)]
  | image m d => m.layout .image d.layout none
  | audio m => m.layout .audio none none
  | video m => m.layout .video none none
  | file m name => m.layout .file none (name.map .text)

def OutputPart.layout : OutputPart Tree → Tree
  | text content extra =>
    .record [
      ("content", some (.text content)),
      ("extra", extra.layout),
      ("type", some (.text PartType.text.name))]
  | image m => m.layout .image none none
  | audio m => m.layout .audio none none
  | video m => m.layout .video none none

variable {E : Type} (read : String → Tree → Except Malformed E)

def Media.ofWire (fs : Fields) : Except Malformed (Media E) := do
  let url ← fs.text? "url"
  let base64Data ← fs.text? "base64_data"
  let mimeType ← fs.text "mime_type"
  let extra ← Extra.ofWire read fs
  return { url, base64Data, mimeType, extra }

def ImageDetail.ofWire (fs : Fields) : Except Malformed ImageDetail :=
  if fs.has "detail" then fs.tag ImageDetail "detail" "image detail" else .ok .unspecified

def InputPart.ofWire (w : Tree) : Except Malformed (InputPart E) := do
  let fs ← w.fieldsOf "input part"
  match ← fs.tag PartType "type" "message part type" with
  | .text => text <$> fs.text "content"
  | .image => do
    let m ← Media.ofWire read fs
    return image m (← ImageDetail.ofWire fs)
  | .audio => audio <$> Media.ofWire read fs
  | .video => video <$> Media.ofWire read fs
  | .file => do
    let m ← Media.ofWire read fs
    return file m (← fs.text? "name")

def OutputPart.ofWire (w : Tree) : Except Malformed (OutputPart E) := do
  let fs ← w.fieldsOf "output part"
  match ← fs.tag PartType "type" "message part type" with
  | .text => do
    let content ← fs.text "content"
    return text content (← Extra.ofWire read fs)
  | .image => image <$> Media.ofWire read fs
  | .audio => audio <$> Media.ofWire read fs
  | .video => video <$> Media.ofWire read fs
  | .file => .error .fileInOutput

end TurnCodec
