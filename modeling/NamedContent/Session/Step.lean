import NamedContent.Session.Delivery
import NamedContent.Session.Registration

/-!
The steps of a session. One step does the first task of the agenda and puts what that calls for
in front of the others, so whatever holds after each step holds at every moment of a nested call.
A command given from outside is over when the agenda is empty.
-/

namespace NamedContent.Session

def versionsOf (ticks : List UInt64) : Except Fault (List Version) :=
  ticks.mapM fun t => (Version.ofTicks t).mapError .version

def arrivals (id : Nat) (base : Name) (i : Interest) (vs : List Version) : List Task :=
  vs.map fun v => .arrive (.retrieval id) (.unsigned (v.appendTo base) []) i

/-- Starts a command. What it is given is looked up before what it acts on, so the fault of an
unknown Interest comes before that of an unknown retrieval. -/
def run (s : Session) : Command → Session
  | .publish c => s.publish c fun hit => [.answer (.flag hit)]
  | .publishAll cs => s.push [.publishAll cs 0]
  | .expireAll =>
    let (transport, ps) := s.transport.expireAll
    { s with transport }.push [.timeoutAll ps ps.length]
  | .refuseNext n => { s with transport := s.transport.refuseNext n }.reply .done
  | .expressDirectly l t i => s.onInterest t i (s.expressDirectly l)
  | .cancelDirectly l t i => s.onInterest t i fun i =>
    { s with transport := s.transport.cancel i (.listener l) }.reply .done
  | .startDiscovery t => s.onTarget t fun id r => s.act id (r.discovery.start s.now) []
  | .stopDiscovery t => s.onTarget t fun id r => s.act id r.discovery.stop [.answer .done]
  | .arrive t c i => s.onInterest t i fun i => s.onTarget t fun id _ =>
    s.push [.arrive (.retrieval id) c i, .answer .done]
  | .arriveAll t base i ticks => s.onInterest t i fun i =>
    match versionsOf ticks with
    | .error fault => s.reply (.failed fault)
    | .ok vs => s.onTarget t fun id _ => s.push (arrivals id base i vs ++ [.answer .done])
  | .timeout t i => s.onInterest t i fun i => s.onTarget t fun id _ =>
    s.push [.timeout (.retrieval id) i, .answer .done]
  | .areExcluded t vs => s.onTarget t fun _ r => s.reply (.flags (vs.map r.discovery.isExcluded))
  | .describe t => s.onTarget t fun _ r =>
    s.reply (.description r.discovery.basename r.discovery.floor)
  | .outstandingWire t => s.onTarget t fun _ r =>
    s.reply (.wires (r.discovery.outstanding.map Wire.interest))
  | .dropOwner t => s.onTarget t fun id _ =>
    (s.modifyRetrieval id fun r => { r with owner := .gone }).reply .done
  | .start t => s.onTarget t fun id _ => s.startRetrieval id []
  | .stop t => s.onTarget t fun id _ => s.stopRetrieval id [.answer .done]
  | .markStopped t => s.onTarget t fun id _ => (s.modifyFanOut id (·.markStopped)).reply .done
  | .addListener t l => s.onTarget t fun id r =>
    (s.modifyFanOut id (·.add l)).reply (.flag (!r.fanOut.isRegistered l))
  | .removeListener t l => s.onTarget t fun id r =>
    (s.modifyFanOut id (·.remove l)).reply (.flag (r.fanOut.isRegistered l))
  | .refresh t now => s.onTarget t fun id _ => s.push [.refreshAll [id] now 0]
  | .handOver t c i => s.onInterest t i fun i => s.onTarget t fun id r =>
    s.beginFanOut id r.fanOut c i [.answer .done]
  | .metrics t => s.onTarget t fun _ r =>
    s.reply (.metrics r.discovery.basename r.discovery.metrics)
  | .express n l exclusions floor => s.onRegistry fun registry =>
    match versionsOf exclusions, versionsOf floor.toList with
    | .error fault, _ => s.reply (.failed fault)
    | _, .error fault => s.reply (.failed fault)
    | .ok exclusions, .ok floor => s.express registry n l exclusions floor.head?
  | .withdraw n l => s.onRegistry fun _ => s.withdraw n l none
  | .close => s.onRegistry s.closeRegistry
  | .dropRegistry => s.onRegistry fun registry =>
    { s.closeRegistry registry with registry := none }
  | .keep n => s.onRegistry fun registry => s.keep registry n
  | .lookup n => s.onRegistry fun registry => s.lookup registry n
  | .registryConfig => s.onRegistry fun registry => s.reply (.config registry.config)
  | .refreshAll now => s.onRegistry fun registry =>
    s.push [.refreshAll (s.listed registry) now 0]
  | .refreshLoop ticks => s.onRegistry fun _ => s.push [.refreshLoop (ticks + 1)]
  | .invalid fault => s.reply (.failed fault)

def doTask (s : Session) : Task → Session
  | .command c => s.run c
  | .record label => s.record (.inner label s.answer)
  | .answer a => s.reply a
  | .perform id actions anyRefused => s.perform id anyRefused actions
  | .settle id i => s.settle id i
  | .arrive h c i => s.arrive c i h
  | .timeout h i => s.timeout i h
  | .handOver id c i => s.handOver id c i
  | .fanOut id listeners c i => s.fanOut id c i listeners
  | .countFailure id => s.modifyFanOut id (·.countFailure)
  | .publishAll cs answered => s.publishNext answered cs
  | .timeoutAll ps total => s.timeoutNext total ps
  | .refreshAll ids now reissued => s.refreshNext now reissued ids
  | .refreshLoop times => s.refreshTimes times
  | .stopAll ids => s.stopNext ids
  | .rollback n l => s.rollback n l

def step (s : Session) : Session :=
  match s.agenda with
  | [] => s
  | task :: rest => { s with agenda := rest, steps := s.steps + 1 }.doTask task

def finish : (fuel : Nat) → Session → Session
  | 0, s => s
  | fuel + 1, s => if s.agenda.isEmpty then s else finish fuel s.step

/-- Gives one command from outside, with a fresh log. -/
def give (fuel : Nat) (s : Session) (c : Command) : Session :=
  finish fuel { s with agenda := [.command c], log := [] }

end NamedContent.Session
