import NamedContent.Discovery

/-!
Fan-out of one discovery to listeners. A listener is registered once at most, and they are
called in the order in which they were registered.
-/

namespace NamedContent

abbrev ListenerId := String

structure FanOut where
  phase : Phase := .created
  listeners : List ListenerId := []
  failures : Nat := 0
  deriving DecidableEq

namespace FanOut

def isRunning (f : FanOut) : Bool := f.phase == .running

def isRegistered (f : FanOut) (l : ListenerId) : Bool := f.listeners.contains l

def add (f : FanOut) (l : ListenerId) : FanOut :=
  if f.isRegistered l then f else { f with listeners := f.listeners ++ [l] }

def remove (f : FanOut) (l : ListenerId) : FanOut :=
  { f with listeners := f.listeners.filter (· != l) }

def markStopped (f : FanOut) : FanOut := { f with phase := .stopped }

def countFailure (f : FanOut) : FanOut := { f with failures := f.failures + 1 }

end FanOut

/-- Who is handed the new versions of a discovery. -/
inductive Owner where
  | listener (id : ListenerId)
  | fanOut
  | gone
  deriving DecidableEq

structure Retrieval where
  discovery : Discovery
  owner : Owner
  fanOut : FanOut := {}

/-- The retrievals that run, one for each name; retrievals themselves are held by number. -/
structure Registry where
  config : Config
  trust : Trust
  entries : List (Name × Nat) := []

namespace Registry

def find? (r : Registry) (n : Name) : Option Nat :=
  (r.entries.find? (·.1 == n)).map (·.2)

def insert (r : Registry) (n : Name) (id : Nat) : Registry :=
  { r with entries := r.entries ++ [(n, id)] }

def erase (r : Registry) (n : Name) : Registry :=
  { r with entries := r.entries.filter (·.1 != n) }

def clear (r : Registry) : Registry := { r with entries := [] }

end Registry

end NamedContent
