import NamedContent.Name
import NamedContent.Publisher

/-!
Content: a name, an optional signer and a payload. The digest of a content is not part of its
name; the full name has it as one more component.
-/

namespace NamedContent

structure Content where
  name : Name
  publisher : Option Digest
  payload : Bytes
  deriving DecidableEq

namespace Content

def unsigned (name : Name) (payload : Bytes) : Content := ⟨name, none, payload⟩

def componentInput (c : Component) : Bytes := Bytes.bigEndianOf 8 c.length ++ c

def publisherInput : Option Digest → Bytes
  | some key => 1 :: key.bytes
  | none => [0]

/-- What the digest is taken of: every component behind its length in eight bytes, a flag with
the signer's key, and the payload. -/
def digestInput (c : Content) : Bytes :=
  c.name.components.flatMap componentInput ++ publisherInput c.publisher ++ c.payload

def digest (c : Content) : Digest := sha256 c.digestInput

def fullName (c : Content) : Name := c.name.append c.digest.bytes

@[simp] theorem length_fullName (c : Content) : c.fullName.length = c.name.length + 1 := by
  simp [fullName]

end Content

end NamedContent
