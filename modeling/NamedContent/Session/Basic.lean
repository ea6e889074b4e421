import NamedContent.Session.Command

/-!
A session: one transport, the retrievals that use it, the listeners that follow them, and an
agenda. Calls nest, since a listener may give commands while it is called and the transport may
answer an Interest while it is being expressed. The agenda holds what is left to do at every
level, innermost first.
-/

namespace NamedContent

inductive Task where
  | command (c : Command)
  /-- Records the last answer as that of a step taken inside a call. -/
  | record (label : String)
  | answer (a : Answer)
  /-- Asks the transport for the actions of a discovery, and answers how that went. -/
  | perform (id : Nat) (actions : List Action) (anyRefused : Bool)
  | settle (id : Nat) (i : Interest)
  | arrive (h : Handler) (c : Content) (i : Interest)
  | timeout (h : Handler) (i : Interest)
  | handOver (id : Nat) (c : Content) (i : Interest)
  /-- Hands content to those of `listeners` whose turn comes. -/
  | fanOut (id : Nat) (listeners : List ListenerId) (c : Content) (i : Interest)
  | countFailure (id : Nat)
  | publishAll (cs : List Content) (answered : Nat)
  | timeoutAll (ps : List (Pending Handler)) (total : Nat)
  | refreshAll (ids : List Nat) (now : Time) (reissued : Nat)
  | refreshLoop (times : Nat)
  | stopAll (ids : List Nat)
  /-- Takes back a registration whose start has failed. -/
  | rollback (n : Name) (l : ListenerId)

/-- An order in which a registry goes through the retrievals that it lists. Nothing else is known
of it. -/
structure Tour where
  order : List Nat → List Nat
  perm : ∀ ids, (order ids).Perm ids

instance : Inhabited Tour := ⟨⟨id, .refl⟩⟩

structure Session where
  transport : Transport Handler := {}
  retrievals : List Retrieval := []
  registry : Option Registry := none
  kept : List (Name × Nat) := []
  scripts : List (ListenerId × Script) := []
  calls : List (ListenerId × Nat) := []
  /-- All that the transport was asked to express on behalf of a retrieval, oldest first. -/
  issued : List Interest := []
  /-- Latest first. -/
  log : List Event := []
  agenda : List Task := []
  answer : Answer := .done
  /-- What the clock reads at each step; it may read anything. -/
  clock : Nat → Time := fun _ => 0
  tours : Nat → Tour := fun _ => default
  steps : Nat := 0

namespace Session

def now (s : Session) : Time := s.clock s.steps

/-- What a registry lists, in the order in which it goes through it now. -/
def listed (s : Session) (registry : Registry) : List Nat :=
  (s.tours s.steps).order (registry.entries.map (·.2))

@[simp] theorem mem_listed {s : Session} {registry : Registry} {id : Nat} :
    id ∈ s.listed registry ↔ id ∈ registry.entries.map (·.2) :=
  ((s.tours s.steps).perm _).mem_iff

def push (s : Session) (tasks : List Task) : Session := { s with agenda := tasks ++ s.agenda }

def reply (s : Session) (a : Answer) : Session := { s with answer := a }

def record (s : Session) (e : Event) : Session := { s with log := e :: s.log }

def modifyRetrieval (s : Session) (id : Nat) (f : Retrieval → Retrieval) : Session :=
  { s with retrievals := s.retrievals.modify id f }

def modifyDiscovery (s : Session) (id : Nat) (f : Discovery → Discovery) : Session :=
  s.modifyRetrieval id fun r => { r with discovery := f r.discovery }

def modifyFanOut (s : Session) (id : Nat) (f : FanOut → FanOut) : Session :=
  s.modifyRetrieval id fun r => { r with fanOut := f r.fanOut }

/-- Goes on with the retrieval `id`; nothing happens if there is none. -/
def withRetrieval (s : Session) (id : Nat) (f : Retrieval → Session) : Session :=
  match s.retrievals[id]? with
  | some r => f r
  | none => s

def keptId? (s : Session) (n : Name) : Option Nat := (s.kept.find? (·.1 == n)).map (·.2)

def resolve (s : Session) : Target → Except Fault Nat
  | .first => .ok 0
  | .named n =>
    match s.keptId? n, s.registry with
    | some id, _ => .ok id
    | none, none => .error .noRegistry
    | none, some registry =>
      match registry.find? n with
      | some id => .ok id
      | none => .error .noRetrieval

def retrievalOf (s : Session) (t : Target) : Except Fault (Nat × Retrieval) :=
  match s.resolve t with
  | .error fault => .error fault
  | .ok id =>
    match s.retrievals[id]? with
    | some r => .ok (id, r)
    | none => .error .noRetrieval

def interestOf (s : Session) (t : Target) : InterestRef → Except Fault Interest
  | .given i => .ok i
  | .issued k =>
    match s.issued[k]? with
    | some i => .ok i
    | none => .error .noInterest
  | .outstanding k =>
    match s.retrievalOf t with
    | .error fault => .error fault
    | .ok (_, r) =>
      match r.discovery.outstanding[k]? with
      | some i => .ok i
      | none => .error .noInterest

def onTarget (s : Session) (t : Target) (f : Nat → Retrieval → Session) : Session :=
  match s.retrievalOf t with
  | .error fault => s.reply (.failed fault)
  | .ok (id, r) => f id r

def onInterest (s : Session) (t : Target) (i : InterestRef) (f : Interest → Session) : Session :=
  match s.interestOf t i with
  | .error fault => s.reply (.failed fault)
  | .ok i => f i

def onRegistry (s : Session) (f : Registry → Session) : Session :=
  match s.registry with
  | none => s.reply (.failed .noRegistry)
  | some registry => f registry

def callCount (s : Session) (l : ListenerId) : Nat :=
  ((s.calls.find? (·.1 == l)).map (·.2)).getD 0

def countCall (s : Session) (l : ListenerId) : Session :=
  { s with calls := (l, s.callCount l + 1) :: s.calls.filter (·.1 != l) }

def script (s : Session) (l : ListenerId) : Script :=
  ((s.scripts.find? (·.1 == l)).map (·.2)).getD {}

/-- Calls a listener: it takes its steps, and what `after` says of its outcome follows. -/
def call (s : Session) (l : ListenerId) (e : Event) (after : Outcome → List Task) : Session :=
  let n := s.callCount l
  let steps := ((s.script l).stepsAt n).flatMap fun step =>
    [.command step.command, .record step.label]
  ((s.record e).countCall l).push (steps ++ after ((s.script l).outcomeAt n))

/-- Leaves the discovery `id` as an event does, and has the actions of that performed. -/
def act (s : Session) (id : Nat) (result : Discovery × List Action) (after : List Task) : Session :=
  (s.modifyDiscovery id fun _ => result.1).push (.perform id result.2 false :: after)

def cancelFor (s : Session) (id : Nat) (i : Interest) : Session :=
  { s.record (.cancel i) with transport := s.transport.cancel i (.retrieval id) }

end Session

end NamedContent
