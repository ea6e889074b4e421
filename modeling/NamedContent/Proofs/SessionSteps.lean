import NamedContent.Proofs.Duties

/-! What one step does in a session of any retrievals, with any listeners. Each kind of step is said
once, with the session that it leaves; whatever is to be kept by all steps is then a matter of these
kinds. -/

namespace NamedContent

open Transport (Op)

namespace Session

def Spares (s : Session) (task : Task) : Prop :=
  ∀ k r, s.retrievals[k]? = some r → task.Skips k

def started (s : Session) (l : ListenerId) (d : Discovery) : Retrieval where
  discovery := (d.start s.now).1
  owner := .fanOut
  fanOut := { phase := .running, listeners := [l] }

/-- A name is registered: its retrieval has started, and that is yet to be seen through. -/
def registered (s : Session) (registry : Registry) (n : Name) (l : ListenerId) (d : Discovery) :
    Session :=
  { s with
    retrievals := s.retrievals ++ [s.started l d]
    registry := some (registry.insert n s.retrievals.length)
    agenda := .perform s.retrievals.length (d.start s.now).2 false :: .rollback n l :: s.agenda }

def Creates (s s' : Session) : Prop :=
  ∃ registry n l exclusions floor, s.registry = some registry ∧ (∀ v ∈ exclusions, v.InRange) ∧
    s' = s.registered registry n l (.create n registry.config registry.trust exclusions floor)

/-- The registry comes to hold nothing but what it held before. -/
def Keeps (s : Session) (registry' : Option Registry) : Prop :=
  ∀ new, registry' = some new → ∃ old, s.registry = some old ∧ new.config = old.config ∧
    new.trust = old.trust ∧ new.entries ⊆ old.entries

theorem Keeps.refl (s : Session) : s.Keeps s.registry := fun new hnew =>
  ⟨new, hnew, rfl, rfl, List.Subset.refl _⟩

theorem Keeps.none (s : Session) : s.Keeps none := nofun

theorem Keeps.erase {s : Session} {registry : Registry} (h : s.registry = some registry)
    (n : Name) : s.Keeps (some (registry.erase n)) := by
  rintro _ ⟨⟩
  exact ⟨registry, h, rfl, rfl, List.filter_subset_self _⟩

theorem Keeps.clear {s : Session} {registry : Registry} (h : s.registry = some registry) :
    s.Keeps (some registry.clear) := by
  rintro _ ⟨⟩
  exact ⟨registry, h, rfl, rfl, List.nil_subset _⟩

/-- What doing a task, already taken from the agenda, makes of the session. -/
inductive Executed (s : Session) : Task → Session → Prop where
  | replies {task : Task} (a : Answer) (horders : task.Orders s none) (hspares : s.Spares task) :
      Executed s task (s.reply a)
  | records (label : String) : Executed s (.record label) (s.record (.inner label s.answer))
  /-- A command for the transport's other users, or one that only brings on tasks. -/
  | commands {c : Command} {t' : Transport Handler} {tasks : List Task} (a : Answer)
      (haside : s.transport.Aside (c.op? s) t') (htasks : ∀ task ∈ tasks, task.Follows c) :
      Executed s (.command c) ((({ s with transport := t' } : Session).push tasks).reply a)
  | asks {c : Command} {tasks : List Task} (hc : ¬ c.ByTransport)
      (htasks : ∀ task ∈ tasks, task.Tells ∧ task.Plain) :
      Executed s (.command c) (s.push tasks)
  | publishes {task : Task} {c : Content} {t' : Transport Handler} {after : List Task}
      (htask : task.Publishes c) (ht : s.transport.publish c = (t', none))
      (hafter : ∀ task ∈ after, task.Light) :
      Executed s task (({ s with transport := t' } : Session).push after)
  | publishAnswers {task : Task} {c : Content} {t' : Transport Handler} {p : Pending Handler}
      {after : List Task} (htask : task.Publishes c) (ht : s.transport.publish c = (t', some p))
      (hafter : ∀ task ∈ after, task.Light) :
      Executed s task
        (({ s with transport := t' } : Session).push (.arrive p.handler c p.interest :: after))
  | expires : Executed s (.command .expireAll)
      (({ s with transport := s.transport.expireAll.1 } : Session).push
        [.timeoutAll s.transport.expireAll.2 s.transport.expireAll.2.length])
  | timesOutNext (p : Pending Handler) (ps : List (Pending Handler)) (n : Nat) :
      Executed s (.timeoutAll (p :: ps) n)
        (s.push [.timeout p.handler p.interest, .timeoutAll ps n])
  | expired (n : Nat) : Executed s (.timeoutAll [] n) (s.reply (.count n))
  | callsBack {task : Task} (l : ListenerId) {e : Event} (htask : task.CallsBack)
      (he : ∀ l c i, e ≠ .deliver l c i) : Executed s task (s.call l e fun _ => [])
  | cancels (id : Nat) (i : Interest) (rest : List Action) (anyRefused : Bool) :
      Executed s (.perform id (.cancel i :: rest) anyRefused)
        (((s.cancelFor id i).modifyDiscovery id (·.cancelled)).push [.perform id rest anyRefused])
  | expressRefused {id : Nat} {i : Interest} (rest : List Action) (anyRefused : Bool)
      {t' : Transport Handler} (ht : s.transport.express i (.retrieval id) = (t', .refused)) :
      Executed s (.perform id (.express i :: rest) anyRefused)
        ((({ s.record (.express i) with issued := s.issued ++ [i], transport := t' }.record
          .refused).modifyDiscovery id (·.refused i)).push [.perform id rest true])
  | expressWaits {id : Nat} {i : Interest} (rest : List Action) (anyRefused : Bool)
      {t' : Transport Handler} (ht : s.transport.express i (.retrieval id) = (t', .waiting)) :
      Executed s (.perform id (.express i :: rest) anyRefused)
        ({ s.record (.express i) with issued := s.issued ++ [i], transport := t' }.push
          [.settle id i, .perform id rest anyRefused])
  | expressAnswered {id : Nat} {i : Interest} (rest : List Action) (anyRefused : Bool)
      {t' : Transport Handler} {c : Content}
      (ht : s.transport.express i (.retrieval id) = (t', .answered c)) :
      Executed s (.perform id (.express i :: rest) anyRefused)
        ({ s.record (.express i) with issued := s.issued ++ [i], transport := t' }.push
          [.arrive (.retrieval id) c i, .settle id i, .perform id rest anyRefused])
  | settleKeeps {id : Nat} {i : Interest} {r : Retrieval} (hr : s.retrievals[id]? = some r)
      (hkeep : (r.discovery.settled i).2 = .keep) : Executed s (.settle id i)
        (s.modifyDiscovery id fun _ => (r.discovery.settled i).1)
  | settleCancels {id : Nat} {i : Interest} {r : Retrieval} (hr : s.retrievals[id]? = some r)
      (hkeep : (r.discovery.settled i).2 ≠ .keep) : Executed s (.settle id i)
        ((s.modifyDiscovery id fun _ => (r.discovery.settled i).1).cancelFor id i)
  | arrives {id : Nat} {r : Retrieval} (c : Content) (i : Interest)
      (hr : s.retrievals[id]? = some r) : Executed s (.arrive (.retrieval id) c i)
        (s.act id ((r.discovery.arrive s.now c i).discovery, (r.discovery.arrive s.now c i).actions)
          (if (r.discovery.arrive s.now c i).delivers then [.handOver id c i] else []))
  | timesOut {id : Nat} {r : Retrieval} (i : Interest) (hr : s.retrievals[id]? = some r) :
      Executed s (.timeout (.retrieval id) i) (s.act id (r.discovery.timeout s.now i) [])
  | handsTo {id : Nat} {r : Retrieval} {l : ListenerId} (c : Content) (i : Interest)
      (hr : s.retrievals[id]? = some r) (hrun : r.discovery.isRunning = true)
      (howner : r.owner = .listener l) :
      Executed s (.handOver id c i) (s.call l (.deliver l c i) fun _ => [])
  | handsOver {id : Nat} {r : Retrieval} (c : Content) (i : Interest)
      (hr : s.retrievals[id]? = some r) (hrun : r.discovery.isRunning = true)
      (howner : r.owner = .fanOut) :
      Executed s (.handOver id c i) (s.beginFanOut id r.fanOut c i [])
  | fansOut {id : Nat} {r : Retrieval} (l : ListenerId) (rest : List ListenerId) (c : Content)
      (i : Interest) (hr : s.retrievals[id]? = some r) (hrun : r.fanOut.isRunning = true) :
      Executed s (.fanOut id (l :: rest) c i)
        (s.call l (.deliver l c i) fun outcome =>
          (if outcome.isFailure then [.countFailure id] else []) ++ [.fanOut id rest c i])
  | skips (id : Nat) (l : ListenerId) (rest : List ListenerId) (c : Content) (i : Interest) :
      Executed s (.fanOut id (l :: rest) c i) (s.push [.fanOut id rest c i])
  | countsFailure (id : Nat) : Executed s (.countFailure id) (s.modifyFanOut id (·.countFailure))
  | starts {c : Command} {id : Nat} {r : Retrieval} (hc : c.Starts)
      (hr : s.retrievals[id]? = some r) (f : FanOut → FanOut)
      (hf : r.fanOut.phase = .stopped → (f r.fanOut).phase = .stopped) :
      Executed s (.command c) ((s.modifyFanOut id f).act id (r.discovery.start s.now) [])
  /-- A retrieval is stopped; its name may have been given up just before. -/
  | stops {task : Task} {id : Nat} {r : Retrieval} (htask : task.Tends)
      (hr : s.retrievals[id]? = some r) {f : FanOut → FanOut}
      (hf : r.fanOut.phase = .stopped → (f r.fanOut).phase = .stopped)
      (hfailures : ∀ g, (f g).failures = g.failures) {registry : Option Registry}
      (hregistry : s.Keeps registry) (a : Answer)
      (hleave : task.command? = none → ∀ g, (f g).listeners.Sublist g.listeners) :
      Executed s task
        ((({ s with registry } : Session).modifyFanOut id f).act id r.discovery.stop [.answer a])
  | stopsNext {id : Nat} {r : Retrieval} (ids : List Nat) (hr : s.retrievals[id]? = some r) :
      Executed s (.stopAll (id :: ids))
        ((s.modifyFanOut id (·.markStopped)).act id r.discovery.stop [.stopAll ids])
  | refreshes {id : Nat} {r : Retrieval} (ids : List Nat) (now : Time) {reissued : Nat} (n : Nat)
      (hr : s.retrievals[id]? = some r) : Executed s (.refreshAll (id :: ids) now reissued)
        (s.act id (r.discovery.refresh now) [.refreshAll ids now n])
  | refreshesOnce (ids : List Nat) (now : Time) (times : Nat) :
      Executed s (.refreshLoop (times + 1)) (s.push [.refreshAll ids now 0, .refreshLoop times])
  | tends {task : Task} {id : Nat} {f : FanOut → FanOut} (a : Answer) (htask : task.Tends)
      (hf : ∀ g, g.phase = .stopped → (f g).phase = .stopped)
      (hfailures : ∀ g, (f g).failures = g.failures)
      (hleave : task.command? = none → ∀ g, (f g).listeners.Sublist g.listeners) :
      Executed s task ((s.modifyFanOut id f).reply a)
  | dropsOwner (t : Target) (id : Nat) : Executed s (.command (.dropOwner t))
      ((s.modifyRetrieval id fun r => { r with owner := .gone }).reply .done)
  | registers {registry : Registry} (hregistry : s.registry = some registry) (n : Name)
      (l : ListenerId) (ticks : List UInt64) (floorTicks : Option UInt64)
      {exclusions : List Version} (hrange : ∀ v ∈ exclusions, v.InRange) (floor : Option Version)
      (hnew : registry.find? n = none) : Executed s (.command (.express n l ticks floorTicks))
        (s.registered registry n l (.create n registry.config registry.trust exclusions floor))
  | closes {c : Command} (hc : c.Closes) {registry : Registry}
      (hregistry : s.registry = some registry) {registry' : Option Registry}
      (hkeeps : s.Keeps registry') :
      Executed s (.command c) { s.closeRegistry registry with registry := registry' }
  | keeps {registry : Registry} (n : Name) (id : Nat) (hregistry : s.registry = some registry)
      (hfind : registry.find? n = some id) : Executed s (.command (.keep n)) (s.keep registry n)

namespace Executed

variable {s : Session}

theorem passes {task : Task} (horders : task.Orders s none) (hspares : s.Spares task) :
    Executed s task s := .replies s.answer horders hspares

variable {c : Command}

theorem reply (a : Answer) (hop : c.op? s = none) : Executed s (.command c) (s.reply a) :=
  .replies a ⟨hop, rfl, rfl⟩ fun _ _ _ => .of_stops_nil rfl rfl

theorem aside {t' : Transport Handler} (a : Answer) (h : s.transport.Aside (c.op? s) t') :
    Executed s (.command c) (({ s with transport := t' } : Session).reply a) :=
  @commands s c t' [] a h (by simp)

theorem push {tasks : List Task} (hop : c.op? s = none) (htasks : ∀ task ∈ tasks, task.Follows c) :
    Executed s (.command c) (s.push tasks) :=
  .commands s.answer (hop ▸ .uncalled _) htasks

end Executed

end Session

end NamedContent
