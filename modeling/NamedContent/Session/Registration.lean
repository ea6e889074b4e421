import NamedContent.Session.Basic

/-!
How retrievals come and go. The first listener that registers for a name starts a retrieval, and
the last one that leaves stops it. A registration whose start fails is taken back.
-/

namespace NamedContent.Session

def startRetrieval (s : Session) (id : Nat) (after : List Task) : Session :=
  s.withRetrieval id fun r =>
    if r.fanOut.phase = .created then
      (s.modifyFanOut id fun f => { f with phase := .running }).act id
        (r.discovery.start s.now) after
    else s.push (.answer .done :: after)

def stopRetrieval (s : Session) (id : Nat) (after : List Task) : Session :=
  s.withRetrieval id fun r => (s.modifyFanOut id (·.markStopped)).act id r.discovery.stop after

def stopNext (s : Session) : List Nat → Session
  | [] => s
  | id :: rest => s.stopRetrieval id [.stopAll rest]

/-- Registers a listener for a name. Only a name that is not registered yet starts a retrieval,
and only then do exclusions and floor count. -/
def express (s : Session) (registry : Registry) (n : Name) (l : ListenerId)
    (exclusions : List Version) (floor : Option Version) : Session :=
  match registry.find? n with
  | some id => (s.modifyFanOut id (·.add l)).reply .done
  | none =>
    let id := s.retrievals.length
    let retrieval : Retrieval :=
      { discovery := .create n registry.config registry.trust exclusions floor
        owner := .fanOut
        fanOut := { listeners := [l] } }
    { s with
      retrievals := s.retrievals ++ [retrieval]
      registry := some (registry.insert n id) }.startRetrieval id [.rollback n l]

/-- Removes a listener from the retrieval registered for a name, and answers whether it was
there, unless the answer is to be `instead`. -/
def withdraw (s : Session) (n : Name) (l : ListenerId) (instead : Option Answer) : Session :=
  let answer (removed : Bool) : Answer := instead.getD (.flag removed)
  match s.registry.bind fun registry => (registry.find? n).map (registry, ·) with
  | none => s.reply (answer false)
  | some (registry, id) => s.withRetrieval id fun r =>
    if r.fanOut.isRegistered l then
      let s := s.modifyFanOut id (·.remove l)
      if (r.fanOut.remove l).listeners.isEmpty then
        { s with registry := some (registry.erase n) }.stopRetrieval id [.answer (answer true)]
      else s.reply (answer true)
    else s.reply (answer false)

def rollback (s : Session) (n : Name) (l : ListenerId) : Session :=
  match s.answer with
  | .failed fault => s.withdraw n l (some (.failed fault))
  | _ => s

def closeRegistry (s : Session) (registry : Registry) : Session :=
  let ids := s.listed registry
  let marked := ids.foldl (fun s id => s.modifyFanOut id (·.markStopped)) s
  { marked with registry := some registry.clear }.push [.stopAll ids, .answer .done]

def keep (s : Session) (registry : Registry) (n : Name) : Session :=
  match registry.find? n with
  | none => s.reply (.flag false)
  | some id =>
    let others := s.kept.filter fun entry => entry.1 != n
    { s with kept := others ++ [(n, id)] }.reply (.flag true)

def lookup (s : Session) (registry : Registry) (n : Name) : Session :=
  match (registry.find? n).bind fun id => s.retrievals[id]? with
  | none => s.reply (.presence false 0)
  | some r => s.reply (.presence true r.fanOut.listeners.length)

def refreshNext (s : Session) (now : Time) (reissued : Nat) : List Nat → Session
  | [] => s.reply (.count reissued)
  | id :: rest => s.withRetrieval id fun r =>
    let result := r.discovery.refresh now
    s.act id result [.refreshAll rest now (reissued + result.2.countP (·.isExpress))]

def refreshTimes (s : Session) : Nat → Session
  | 0 => s.reply .ended
  | times + 1 =>
    let ids := (s.registry.map s.listed).getD []
    s.push [.refreshAll ids s.now 0, .refreshLoop times]

end NamedContent.Session
