import NamedContent.Form
import NamedContent.Interest

/-!
The forms of names, filters, publishers, content and Interests.
-/

namespace NamedContent.Form

instance : Form Name where
  toForm n := .record [("components", toForm n.components)]
  ofForm? v :=
    match fields? ["components"] v with
    | some [components] => Name.mk <$> required components
    | _ => none

instance : Form ExcludeElement where
  toForm
    | .component c => .record [("Component", toForm c)]
    | .any => .text "Any"
  ofForm? v :=
    match alternative? v with
    | some ("Component", some c) => .component <$> ofForm? c
    | some ("Any", held) => if holdsNothing held then some .any else none
    | _ => none

/-- A filter is kept as its elements, and read only if they are in order. -/
instance : Form ExcludeFilter where
  toForm f := toForm f.elements
  ofForm? v := do
    let elements : List ExcludeElement ← ofForm? v
    (ExcludeFilter.ofElements elements).toOption

instance : Form Digest where
  toForm d := toForm d.bytes
  ofForm? v := do
    let bytes : Bytes ← ofForm? v
    Digest.ofBytes? bytes

def kindName : PublisherKind → String
  | .key => "Key"
  | .certificate => "Certificate"
  | .issuerKey => "IssuerKey"
  | .issuerCertificate => "IssuerCertificate"

def kind? (name : String) : Option PublisherKind :=
  [.key, .certificate, .issuerKey, .issuerCertificate].find? (kindName · == name)

instance : Form PublisherKind where
  toForm kind := .text (kindName kind)
  ofForm? v :=
    match alternative? v with
    | some (name, held) => if holdsNothing held then kind? name else none
    | none => none

instance : Form PublisherId where
  toForm p := .record [("kind", toForm p.kind), ("id", toForm p.id)]
  ofForm? v :=
    match fields? ["kind", "id"] v with
    | some [kind, id] => do
      let kind ← required kind
      let id ← required id
      return { kind, id }
    | _ => none

instance : Form OrderPreference where
  toForm o := toForm o.bits
  ofForm? v := OrderPreference.mk <$> ofForm? v

instance : Form AnswerOrigin where
  toForm o := toForm o.bits
  ofForm? v := AnswerOrigin.mk <$> ofForm? v

instance : Form Content where
  toForm c := .record [("name", toForm c.name), ("publisher", toForm c.publisher),
    ("payload", toForm c.payload)]
  ofForm? v :=
    match fields? ["name", "publisher", "payload"] v with
    | some [name, publisher, payload] => do
      let name ← required name
      let publisher ← optional publisher
      let payload ← required payload
      return { name, publisher, payload }
    | _ => none

def interestFields : List String :=
  ["name", "name_component_count", "additional_name_components", "publisher_id", "exclude_filter",
    "order_preference", "answer_origin_kind", "scope", "count", "nonce", "response_filter"]

instance : Form Interest where
  toForm i := .record (interestFields.zip
    [toForm i.name, toForm i.prefixCount, toForm i.additional, toForm i.publisher,
      toForm i.exclude, toForm i.order, toForm i.origin, toForm i.scope, toForm i.count,
      toForm i.nonce, toForm i.responseFilter])
  ofForm? v :=
    match fields? interestFields v with
    | some [name, prefixCount, additional, publisher, exclude, order, origin, scope, count, nonce,
        responseFilter] => do
      let name ← required name
      let prefixCount ← optional prefixCount
      let additional ← optional additional
      let publisher ← optional publisher
      let exclude ← optional exclude
      let order ← optional order
      let origin ← optional origin
      let scope ← optional scope
      let count ← optional count
      let nonce ← optional nonce
      let responseFilter ← optional responseFilter
      return { name, prefixCount, additional, publisher, exclude, order, origin, scope, count,
               nonce, responseFilter }
    | _ => none

end NamedContent.Form
