import NamedContent.Interest.Match

/-!
A transport that holds content and unanswered Interests. Content that is published answers the
oldest Interest it matches; an Interest that is expressed is answered by the best content held,
or waits. Handlers are only named here: calling them is left to whoever uses the transport, and
every function says whom to call.
-/

namespace NamedContent

structure Pending (H : Type) where
  interest : Interest
  handler : H
  deriving DecidableEq

structure Transport (H : Type) where
  /-- Oldest first. -/
  store : List Content := []
  /-- Oldest first. -/
  pending : List (Pending H) := []
  /-- How many expressions from now on are refused. -/
  refusals : Nat := 0
  expressed : Nat := 0
  cancelled : Nat := 0
  delivered : Nat := 0

namespace Transport

variable {H : Type}

/-- The leftmost of the contents by name, and the earliest of those. -/
def leftmost : List Content → Option Content
  | [] => none
  | c :: rest => some (rest.foldl (fun best d => if d.name < best.name then d else best) c)

def rightmost : List Content → Option Content
  | [] => none
  | c :: rest => some (rest.foldl (fun best d => if d.name < best.name then best else d) c)

def bestMatch (t : Transport H) (i : Interest) : Option Content :=
  let candidates := t.store.filter (i.accepts .exactKey)
  if (i.order.map (·.prefersRight)).getD false then rightmost candidates else leftmost candidates

/-- Holds `c`, and answers the waiting Interest that is to be called back with it, if any. -/
def publish (t : Transport H) (c : Content) : Transport H × Option (Pending H) :=
  let stored := { t with store := t.store ++ [c] }
  match t.pending.find? (·.interest.accepts .exactKey c) with
  | none => (stored, none)
  | some p =>
    ({ stored with
        pending := t.pending.eraseP (·.interest.accepts .exactKey c)
        delivered := t.delivered + 1 }, some p)

def expireAll (t : Transport H) : Transport H × List (Pending H) :=
  ({ t with pending := [] }, t.pending)

def refuseNext (t : Transport H) (n : Nat) : Transport H := { t with refusals := n }

inductive Expression where
  | refused
  | waiting
  | answered (c : Content)
  deriving DecidableEq

def express (t : Transport H) (i : Interest) (h : H) : Transport H × Expression :=
  if 0 < t.refusals then ({ t with refusals := t.refusals - 1 }, .refused)
  else
    let t := { t with expressed := t.expressed + 1 }
    match t.bestMatch i with
    | none => ({ t with pending := t.pending ++ [⟨i, h⟩] }, .waiting)
    | some c => ({ t with delivered := t.delivered + 1 }, .answered c)

/-- Forgets the oldest waiting Interest equal to `i` of the same handler, if there is one. -/
def cancel [DecidableEq H] (t : Transport H) (i : Interest) (h : H) : Transport H :=
  if ⟨i, h⟩ ∈ t.pending then
    { t with pending := t.pending.erase ⟨i, h⟩, cancelled := t.cancelled + 1 }
  else t

end Transport

end NamedContent
