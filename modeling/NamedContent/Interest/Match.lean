import NamedContent.Interest

/-!
The matching predicate. A candidate is a bare name, or the full name of a content where the
Interest's prefix reaches its digest. A candidate is judged without trust first: it is refused,
accepted, or accepted if its signer meets the required publisher. So a trust policy is asked
once at most, and only about candidates that nothing else refuses.
-/

namespace NamedContent

inductive Judgement where
  | refused
  | accepted
  | ask (required : PublisherId) (signer : Digest)
  deriving DecidableEq

namespace Judgement

def resolve (trust : Trust) : Judgement → Bool
  | .refused => false
  | .accepted => true
  | .ask required signer => trust.meets required signer

def asks : Judgement → Bool
  | .ask _ _ => true
  | _ => false

end Judgement

namespace Interest

def sharedCount (i : Interest) : Nat :=
  match i.prefixCount with
  | some k => k.toNat
  | none => i.name.length

/-- The Interest names one content by its full name, digest included. -/
def namesDigest (i : Interest) : Bool :=
  i.additional == some 0 && i.sharedCount == i.name.length

/-- A prefix test for names without their digest; the digest of an Interest that names one is
left out of it. -/
def isPrefixOf (i : Interest) (candidate : Name) : Bool :=
  i.name.agreesUpTo candidate (if i.namesDigest then i.sharedCount - 1 else i.sharedCount)

def isPrefixOfContent (i : Interest) (c : Content) : Bool :=
  i.name.agreesUpTo c.name i.sharedCount

def additionalMet (i : Interest) (candidate : Name) (digestIncluded : Bool) : Bool :=
  match i.additional with
  | none => true
  | some n =>
    candidate.length + (if digestIncluded then 0 else 1) == i.sharedCount + n.toNat

/-- A candidate sorts after the name if an order is asked for, unless it lacks just one
component of the name although its digest is counted. -/
def orderMet (i : Interest) (candidate : Name) (digestIncluded : Bool) : Bool :=
  i.order.isNone || decide (i.name < candidate) ||
    (digestIncluded && candidate.length + 1 == i.name.length)

def excludeMet (i : Interest) (candidate : Name) : Bool :=
  match i.exclude, candidate.component? i.sharedCount with
  | some f, some c => !f.excludes c
  | _, _ => true

def judgePublisher (i : Interest) (signer : Option Digest) : Judgement :=
  match i.publisher, signer with
  | none, _ => .accepted
  | some _, none => .refused
  | some required, some key => .ask required key

def judge (i : Interest) (candidate : Name) (digestIncluded : Bool) (signer : Option Digest) :
    Judgement :=
  if i.isPrefixOf candidate && i.additionalMet candidate digestIncluded &&
      i.orderMet candidate digestIncluded && i.excludeMet candidate then
    i.judgePublisher signer
  else .refused

def judgeName (i : Interest) (candidate : Name) (signer : Option Digest) : Judgement :=
  i.judge candidate false signer

/-- A content whose name is just one component short of the shared ones is judged by its full
name. -/
def judgeContent (i : Interest) (c : Content) : Judgement :=
  if c.name.length + 1 == i.sharedCount then i.judge c.fullName true c.publisher
  else i.judge c.name false c.publisher

def acceptsName (i : Interest) (trust : Trust) (candidate : Name) (signer : Option Digest) :
    Bool :=
  (i.judgeName candidate signer).resolve trust

def accepts (i : Interest) (trust : Trust) (c : Content) : Bool :=
  (i.judgeContent c).resolve trust

end Interest

def Content.answered (c : Content) (trust : Trust) (interests : List Interest) :
    List (Nat × Interest) :=
  (interests.zipIdx.map fun p => (p.2, p.1)).filter fun p => p.2.accepts trust c

end NamedContent
