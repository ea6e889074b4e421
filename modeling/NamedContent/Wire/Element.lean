import NamedContent.Wire.Framing

/-!
The wire forms of names, exclude filters and required publishers, as writers and readers.
-/

namespace NamedContent.Wire

def name (n : Name) : Bytes :=
  composite Tag.name (n.components.flatMap (leaf Tag.component))

def excludeElement : ExcludeElement → Bytes
  | .component c => leaf Tag.component c
  | .any => leaf Tag.any []

def exclude (f : ExcludeFilter) : Bytes :=
  composite Tag.exclude (f.elements.flatMap excludeElement)

def publisherTag : PublisherKind → UInt8
  | .key => Tag.publisherKey
  | .certificate => Tag.publisherCertificate
  | .issuerKey => Tag.publisherIssuerKey
  | .issuerCertificate => Tag.publisherIssuerCertificate

def publisherKind? (t : UInt8) : Option PublisherKind :=
  if t = Tag.publisherKey then some .key
  else if t = Tag.publisherCertificate then some .certificate
  else if t = Tag.publisherIssuerKey then some .issuerKey
  else if t = Tag.publisherIssuerCertificate then some .issuerCertificate
  else none

theorem publisherKind?_publisherTag (kind : PublisherKind) :
    publisherKind? (publisherTag kind) = some kind := by
  cases kind <;> rfl

def publisher (p : PublisherId) : Bytes := leaf (publisherTag p.kind) p.id.bytes

namespace Reader

def nextComponent (t : UInt8) : Option (Reader Component) :=
  if t = Tag.component then some (leaf Tag.component "Component") else none

theorem shortens_nextComponent (t : UInt8) (r : Reader Component)
    (h : nextComponent t = some r) : Shortens r := by
  unfold nextComponent at h
  split at h
  · cases h
    exact shortens_leaf _ _
  · cases h

def name : Reader Name := do
  tag "Name" Tag.name
  let components ← many nextComponent shortens_nextComponent
  close "Name close"
  return ⟨components⟩

/-- The payload of a range marker is passed over. -/
def nextExcludeElement (t : UInt8) : Option (Reader ExcludeElement) :=
  if t = Tag.component then
    some do
      let c ← leaf Tag.component "Exclude component"
      return .component c
  else if t = Tag.any then
    some do
      let _ ← leaf Tag.any "Exclude range"
      return .any
  else none

theorem shortens_nextExcludeElement (t : UInt8) (r : Reader ExcludeElement)
    (h : nextExcludeElement t = some r) : Shortens r := by
  unfold nextExcludeElement at h
  split at h
  · cases h
    exact (shortens_leaf _ _).bind fun _ => noLonger_pure _
  · split at h
    · cases h
      exact (shortens_leaf _ _).bind fun _ => noLonger_pure _
    · cases h

def exclude : Reader ExcludeFilter := do
  tag "Exclude" Tag.exclude
  let elements ← many nextExcludeElement shortens_nextExcludeElement
  close "Exclude close"
  match ExcludeFilter.ofElements elements with
  | .ok f => return f
  | .error fault => fail (.exclude fault)

def publisher : Reader PublisherId := do
  let t ← byte "PublisherID"
  match publisherKind? t with
  | none => fail (.unexpectedTag "PublisherID" t)
  | some kind =>
    let digits ← payload "PublisherID"
    match Digest.ofBytes? digits with
    | none => fail (.publisherLength digits.length)
    | some id => return ⟨kind, id⟩

end Reader

end NamedContent.Wire
