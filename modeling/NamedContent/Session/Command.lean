import NamedContent.FanOut
import NamedContent.Transport
import NamedContent.Wire.Interest

/-!
What a session may be told to do, what it answers, and what it records on the way.
-/

namespace NamedContent

inductive Handler where
  | listener (id : ListenerId)
  | retrieval (id : Nat)
  deriving DecidableEq

inductive Fault where
  | uri (e : UriError)
  | exclude (e : ExcludeFault)
  | wire (e : Wire.WireFault)
  | version (e : VersionFault)
  | config (e : ConfigFault)
  | partition (e : ExcludeFault)
  | refused
  | noRegistry
  | noRetrieval
  | noInterest
  deriving DecidableEq

def Fault.message : Fault → Option String
  | .uri e => some e.message
  | .exclude e => some e.message
  | .wire e => some e.message
  | .version e => some e.message
  | .config e => some e.message
  | .partition e => some ("Cannot build exclude filter: " ++ e.message)
  | .refused => some "Interest rejected: injected failure"
  | .noRegistry => none
  | .noRetrieval => none
  | .noInterest => none

inductive Target where
  /-- The first one, in a session that has no registry. -/
  | first
  /-- The one kept under a name, or else the one registered for it. -/
  | named (n : Name)
  deriving DecidableEq

inductive InterestRef where
  /-- By its position among those outstanding of the retrieval that the command is about. -/
  | outstanding (i : Nat)
  /-- By its position among all that the transport was ever asked to express. -/
  | issued (i : Nat)
  | given (i : Interest)
  deriving DecidableEq

inductive Command where
  | publish (c : Content)
  | publishAll (cs : List Content)
  | expireAll
  | refuseNext (n : Nat)
  | expressDirectly (l : ListenerId) (t : Target) (i : InterestRef)
  | cancelDirectly (l : ListenerId) (t : Target) (i : InterestRef)
  | startDiscovery (t : Target)
  | stopDiscovery (t : Target)
  | arrive (t : Target) (c : Content) (i : InterestRef)
  /-- Content arrives for each of these versions, given in ticks, under a base name. -/
  | arriveAll (t : Target) (base : Name) (i : InterestRef) (ticks : List UInt64)
  | timeout (t : Target) (i : InterestRef)
  | areExcluded (t : Target) (vs : List Version)
  | describe (t : Target)
  | outstandingWire (t : Target)
  | dropOwner (t : Target)
  | start (t : Target)
  | stop (t : Target)
  | markStopped (t : Target)
  | addListener (t : Target) (l : ListenerId)
  | removeListener (t : Target) (l : ListenerId)
  | refresh (t : Target) (now : Time)
  | handOver (t : Target) (c : Content) (i : InterestRef)
  | metrics (t : Target)
  /-- The exclusions and the floor, in ticks, seed a new retrieval. -/
  | express (n : Name) (l : ListenerId) (exclusions : List UInt64) (floor : Option UInt64)
  | withdraw (n : Name) (l : ListenerId)
  | close
  | dropRegistry
  | keep (n : Name)
  | lookup (n : Name)
  | registryConfig
  | refreshAll (now : Time)
  /-- Refreshes every retrieval `ticks + 1` times with what the clock reads. -/
  | refreshLoop (ticks : Nat)
  /-- Something that cannot be told for this reason; it does nothing else. -/
  | invalid (fault : Fault)
  deriving DecidableEq

inductive Answer where
  | done
  | ended
  | flag (b : Bool)
  | flags (bs : List Bool)
  | count (n : Nat)
  | failed (fault : Fault)
  | description (basename : Name) (floor : Option Version)
  | metrics (basename : Name) (m : Metrics)
  | wires (ws : List (Except Wire.WireFault Bytes))
  | presence (registered : Bool) (listeners : Nat)
  | config (c : Config)

structure Step where
  label : String
  command : Command

inductive Outcome where
  | ok
  | error
  | crash
  deriving DecidableEq

def Outcome.isFailure : Outcome → Bool
  | .ok => false
  | .error => true
  | .crash => true

/-- What a listener does when it is called: at its n-th call it takes the n-th list of steps and
ends with the n-th outcome, or with the last one. -/
structure Script where
  calls : List (List Step) := []
  outcomes : List Outcome := []

namespace Script

def stepsAt (s : Script) (n : Nat) : List Step := s.calls.getD n []

def outcomeAt (s : Script) (n : Nat) : Outcome :=
  match s.outcomes[n]? with
  | some o => o
  | none => s.outcomes.getLast?.getD .ok

end Script

inductive Event where
  | express (i : Interest)
  | refused
  | cancel (i : Interest)
  /-- A listener is handed a new version. -/
  | deliver (l : ListenerId) (c : Content) (i : Interest)
  /-- A listener is called back by the transport. -/
  | content (l : ListenerId) (c : Content) (i : Interest)
  | timeout (l : ListenerId) (i : Interest)
  | inner (label : String) (answer : Answer)

end NamedContent
