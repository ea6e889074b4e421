import NamedContent.Session.Basic

/-!
How a session passes content around: from the transport to handlers, from a discovery to its
owner, and from there to listeners; and how the actions of a discovery reach the transport.
-/

namespace NamedContent.Session

/-- Publishes content, which calls back whoever waits for it; `after` is told whether one did. -/
def publish (s : Session) (c : Content) (after : Bool → List Task) : Session :=
  match s.transport.publish c with
  | (transport, none) => { s with transport }.push (after false)
  | (transport, some p) => { s with transport }.push (.arrive p.handler c p.interest :: after true)

def publishNext (s : Session) (answered : Nat) : List Content → Session
  | [] => s.reply (.count answered)
  | c :: rest => s.publish c fun hit => [.publishAll rest (if hit then answered + 1 else answered)]

def timeoutNext (s : Session) (total : Nat) : List (Pending Handler) → Session
  | [] => s.reply (.count total)
  | p :: rest => s.push [.timeout p.handler p.interest, .timeoutAll rest total]

def expressDirectly (s : Session) (l : ListenerId) (i : Interest) : Session :=
  match s.transport.express i (.listener l) with
  | (transport, .refused) => { s with transport }.reply (.failed .refused)
  | (transport, .waiting) => { s with transport }.reply .done
  | (transport, .answered c) =>
    { s with transport }.push [.arrive (.listener l) c i, .answer .done]

/-- Does the first of the actions. All of them are tried, whichever the transport refuses. -/
def perform (s : Session) (id : Nat) (anyRefused : Bool) : List Action → Session
  | [] => s.reply (if anyRefused then .failed .refused else .done)
  | .cancel i :: rest =>
    ((s.cancelFor id i).modifyDiscovery id (·.cancelled)).push [.perform id rest anyRefused]
  | .express i :: rest =>
    let s := { s.record (.express i) with issued := s.issued ++ [i] }
    match s.transport.express i (.retrieval id) with
    | (transport, .refused) =>
      let s := { s with transport }.record .refused
      (s.modifyDiscovery id (·.refused i)).push [.perform id rest true]
    | (transport, .waiting) =>
      { s with transport }.push [.settle id i, .perform id rest anyRefused]
    | (transport, .answered c) =>
      { s with transport }.push
        [.arrive (.retrieval id) c i, .settle id i, .perform id rest anyRefused]

def settle (s : Session) (id : Nat) (i : Interest) : Session :=
  s.withRetrieval id fun r =>
    let (d, settlement) := r.discovery.settled i
    let s := s.modifyDiscovery id fun _ => d
    match settlement with
    | .keep => s
    | .withdraw => s.cancelFor id i
    | .superseded => s.cancelFor id i

def arrive (s : Session) (c : Content) (i : Interest) : Handler → Session
  | .listener l => s.call l (.content l c i) fun _ => []
  | .retrieval id => s.withRetrieval id fun r =>
    let absorbed := r.discovery.arrive s.now c i
    s.act id (absorbed.discovery, absorbed.actions)
      (if absorbed.delivers then [.handOver id c i] else [])

def timeout (s : Session) (i : Interest) : Handler → Session
  | .listener l => s.call l (.timeout l i) fun _ => []
  | .retrieval id => s.withRetrieval id fun r => s.act id (r.discovery.timeout s.now i) []

def beginFanOut (s : Session) (id : Nat) (f : FanOut) (c : Content) (i : Interest)
    (after : List Task) : Session :=
  s.push ((if f.isRunning then [.fanOut id f.listeners c i] else []) ++ after)

def handOver (s : Session) (id : Nat) (c : Content) (i : Interest) : Session :=
  s.withRetrieval id fun r =>
    if r.discovery.isRunning then
      match r.owner with
      | .listener l => s.call l (.deliver l c i) fun _ => []
      | .fanOut => s.beginFanOut id r.fanOut c i []
      | .gone => s
    else s

/-- A listener removed meanwhile is passed over, and a fan-out stopped meanwhile ends. -/
def fanOut (s : Session) (id : Nat) (c : Content) (i : Interest) : List ListenerId → Session
  | [] => s
  | l :: rest => s.withRetrieval id fun r =>
    if !r.fanOut.isRunning then s
    else if !r.fanOut.isRegistered l then s.push [.fanOut id rest c i]
    else s.call l (.deliver l c i) fun outcome =>
      (if outcome.isFailure then [.countFailure id] else []) ++ [.fanOut id rest c i]

end NamedContent.Session
