import NamedContent.Content
import NamedContent.Exclude

/-!
Interests: a name with optional constraints on the content that answers. An absent constraint
differs from every value it could have. Interests are ordered field by field, an absent
constraint first; the order has no meaning beyond telling Interests apart.
-/

namespace NamedContent

structure OrderPreference where
  bits : UInt32
  deriving DecidableEq, Ord

namespace OrderPreference

def left : OrderPreference := ⟨0⟩
def right : OrderPreference := ⟨1⟩
def byName : OrderPreference := ⟨4⟩

def union (a b : OrderPreference) : OrderPreference := ⟨a.bits ||| b.bits⟩

def contains (a b : OrderPreference) : Bool := a.bits &&& b.bits == b.bits

def prefersRight (a : OrderPreference) : Bool := a.contains right

def unspecified : OrderPreference := left

end OrderPreference

structure AnswerOrigin where
  bits : UInt32
  deriving DecidableEq, Ord

namespace AnswerOrigin

def contentStore : AnswerOrigin := ⟨1⟩
def generated : AnswerOrigin := ⟨2⟩
/-- Asks for matching content to be marked stale, which only the local scope allows. -/
def markStale : AnswerOrigin := ⟨16⟩

def union (a b : AnswerOrigin) : AnswerOrigin := ⟨a.bits ||| b.bits⟩

def contains (a b : AnswerOrigin) : Bool := a.bits &&& b.bits == b.bits

def unspecified : AnswerOrigin := contentStore.union generated

end AnswerOrigin

structure Interest where
  name : Name
  /-- How many components of the name a candidate shares; all of them if absent. -/
  prefixCount : Option UInt64 := none
  /-- How many components a candidate's full name has after those. -/
  additional : Option UInt64 := none
  publisher : Option PublisherId := none
  exclude : Option ExcludeFilter := none
  order : Option OrderPreference := none
  origin : Option AnswerOrigin := none
  scope : Option UInt32 := none
  count : Option UInt32 := none
  nonce : Option Bytes := none
  responseFilter : Option Bytes := none
  deriving DecidableEq, Ord

inductive InterestFault where
  | generatedAlone
  | markStaleOutOfScope
  deriving DecidableEq

namespace InterestFault

def field : InterestFault → String
  | .generatedAlone => "AnswerOriginKind"
  | .markStaleOutOfScope => "AnswerOriginKind"

def reason : InterestFault → String
  | .generatedAlone => "may not be GENERATED alone"
  | .markStaleOutOfScope => "MARK_STALE requires scope 0"

end InterestFault

namespace Interest

def fault? (i : Interest) : Option InterestFault :=
  match i.origin with
  | none => none
  | some origin =>
    if origin = .generated then some .generatedAlone
    else if origin.contains .markStale ∧ i.scope ≠ some 0 then some .markStaleOutOfScope
    else none

def validate (i : Interest) : Except InterestFault Unit :=
  match i.fault? with
  | some fault => .error fault
  | none => .ok ()

def part (label : String) (text : Option String) : String :=
  match text with
  | some text => label ++ text
  | none => ""

def excludeText (f : ExcludeFilter) : String :=
  toString f.size ++ "):[" ++ f.summary ++ "]"

def render (i : Interest) : String :=
  i.name.toUri ++ ": " ++
    part " ct:" (i.prefixCount.map toString) ++
    part " anc:" (i.additional.map toString) ++
    part " p:" (i.publisher.map (·.id.toHex)) ++
    part " ex(" (i.exclude.map excludeText)

end Interest

end NamedContent
