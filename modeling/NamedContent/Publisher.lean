import NamedContent.Digest

/-!
Publishers. Content carries the digest of its signer's key; an Interest may require a publisher
by a digest of one of four kinds. Whether a signer meets a requirement is for a trust policy.
-/

namespace NamedContent

inductive PublisherKind where
  | key
  | certificate
  | issuerKey
  | issuerCertificate
  deriving DecidableEq, Ord

structure PublisherId where
  kind : PublisherKind
  id : Digest
  deriving DecidableEq, Ord

def PublisherId.ofKey (key : Digest) : PublisherId := ⟨.key, key⟩

structure Trust where
  meets : (required : PublisherId) → (signer : Digest) → Bool

namespace Trust

/-- Only a required key can be met, and only by itself. -/
def exactKey : Trust := ⟨fun required signer => required == .ofKey signer⟩

def everyone : Trust := ⟨fun _ _ => true⟩

def nobody : Trust := ⟨fun _ _ => false⟩

def certificates : Trust := ⟨fun required _ => required.kind == .certificate⟩

theorem exactKey_meets_iff {required : PublisherId} {signer : Digest} :
    exactKey.meets required signer = true ↔ required = .ofKey signer := by
  simp [exactKey]

end Trust

end NamedContent
