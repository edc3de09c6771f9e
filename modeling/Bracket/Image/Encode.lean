import Bracket.Document.Json
import Bracket.Document.Wire
import Bracket.Document.Yaml
import Bracket.Image
import Bracket.Text.Quoted

/-!
# Encoding images

An image is written as an outline, or as its document in JSON, YAML or the wire format. JSON and the
wire format hold text only, so they refuse (`checkText`) an image with a name that is not valid
UTF-8.
-/

namespace Bracket

inductive TreeFormat where
  | text
  | json
  | yaml
  | proto
  deriving DecidableEq, Repr, Inhabited

/-- The format with a given name; without a name it is the outline. -/
def TreeFormat.ofName? (name : Bytes) : Option TreeFormat :=
  if name = [] ∨ name = bytes "text" then some .text
  else if name = bytes "json" then some .json
  else if name = bytes "yaml" then some .yaml
  else if name = bytes "proto" then some .proto
  else none

namespace Image

/-- Refuses a document with a text that is not valid UTF-8. -/
def checkText (document : Document) : Except Failure Unit :=
  match document.invalidText? with
  | none => .ok ()
  | some text =>
    .error (.ofText (bytes "proto: invalid UTF-8 in string: " ++ Text.quote text))

/-- The image in one of its forms. -/
def encode (image : Image) : TreeFormat → Except Failure Bytes
  | .text => .ok image.outline
  | .json => do
    checkText image.document
    return image.document.json 0
  | .yaml => .ok (Document.yaml image.fields)
  | .proto => do
    checkText image.document
    return Document.wireEntries image.fields

/-- The image in the form with the given name. -/
def encodeAs (image : Image) (name : Bytes) : Except Failure Bytes :=
  match TreeFormat.ofName? name with
  | some format => image.encode format
  | none => .error (.ofText (bytes "unknown tree format " ++ Text.quote name))

end Image

end Bracket
