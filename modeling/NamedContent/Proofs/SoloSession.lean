import NamedContent.Session.Step

/-! Sessions about one discovery, whose owner takes no steps of its own when it is called. What a
step of such a session does is said once, task by task: how the discovery and the transport change,
what is expressed and handed over, and which tasks take the place of the first one. -/

namespace NamedContent

/-- What a step leaves: the discovery and the transport, the Interests that were expressed, the
contents that were handed over, and the tasks that come next. -/
structure Effect where
  discovery : Discovery
  transport : Transport Handler
  expressed : List Interest := []
  handed : List Content := []
  tasks : List Task := []

def Event.handed? : Event → Option Content
  | .deliver _ c _ => some c
  | _ => none

def Command.Local : Command → Prop
  | .startDiscovery .first => True
  | .stopDiscovery .first => True
  | .refresh .first _ => True
  | .timeout .first _ => True
  | .arrive .first _ (.issued _) => True
  | .publish _ => True
  | .publishAll _ => True
  | .expireAll => True
  | _ => False

def Task.Local : Task → Prop
  | .command c => c.Local
  | .answer _ => True
  | .perform id _ _ => id = 0
  | .settle id _ => id = 0
  | .arrive h _ _ => h = .retrieval 0
  | .timeout h _ => h = .retrieval 0
  | .handOver id _ _ => id = 0
  | .publishAll _ _ => True
  | .timeoutAll _ _ => True
  | .refreshAll ids _ _ => ∀ id ∈ ids, id = 0
  | _ => False

/-- What a local task does, given the Interests issued so far, the discovery and the transport. -/
inductive Does (issued : List Interest) (d : Discovery) (t : Transport Handler) :
    Task → Effect → Prop where
  | start (now : Time) : Does issued d t (.command (.startDiscovery .first))
      { discovery := (d.start now).1, transport := t
        tasks := [.perform 0 (d.start now).2 false] }
  | stop : Does issued d t (.command (.stopDiscovery .first))
      { discovery := d.stop.1, transport := t
        tasks := [.perform 0 d.stop.2 false, .answer .done] }
  | refresh (now : Time) : Does issued d t (.command (.refresh .first now))
      { discovery := d, transport := t, tasks := [.refreshAll [0] now 0] }
  | unknownTimeout (ref : InterestRef) : Does issued d t (.command (.timeout .first ref))
      { discovery := d, transport := t }
  | knownTimeout (ref : InterestRef) (i : Interest) :
      Does issued d t (.command (.timeout .first ref))
        { discovery := d, transport := t
          tasks := [.timeout (.retrieval 0) i, .answer .done] }
  | unknownArrival (c : Content) (k : Nat) :
      Does issued d t (.command (.arrive .first c (.issued k)))
        { discovery := d, transport := t }
  | knownArrival (c : Content) {k : Nat} {i : Interest} (hi : issued[k]? = some i) :
      Does issued d t (.command (.arrive .first c (.issued k)))
        { discovery := d, transport := t
          tasks := [.arrive (.retrieval 0) c i, .answer .done] }
  | publish {c : Content} {t' : Transport Handler} (ht : t.publish c = (t', none)) :
      Does issued d t (.command (.publish c))
        { discovery := d, transport := t', tasks := [.answer (.flag false)] }
  | publishAnswers {c : Content} {t' : Transport Handler} {p : Pending Handler}
      (ht : t.publish c = (t', some p)) :
      Does issued d t (.command (.publish c))
        { discovery := d, transport := t'
          tasks := [.arrive p.handler c p.interest, .answer (.flag true)] }
  | publishMany (cs : List Content) : Does issued d t (.command (.publishAll cs))
      { discovery := d, transport := t, tasks := [.publishAll cs 0] }
  | expire : Does issued d t (.command .expireAll)
      { discovery := d, transport := t.expireAll.1
        tasks := [.timeoutAll t.expireAll.2 t.expireAll.2.length] }
  | answer (a : Answer) : Does issued d t (.answer a) { discovery := d, transport := t }
  | performed (anyRefused : Bool) : Does issued d t (.perform 0 [] anyRefused)
      { discovery := d, transport := t }
  | cancel (i : Interest) (rest : List Action) (anyRefused : Bool) :
      Does issued d t (.perform 0 (.cancel i :: rest) anyRefused)
        { discovery := d.cancelled, transport := t.cancel i (.retrieval 0)
          tasks := [.perform 0 rest anyRefused] }
  | expressRefused {i : Interest} (rest : List Action) (anyRefused : Bool)
      {t' : Transport Handler} (ht : t.express i (.retrieval 0) = (t', .refused)) :
      Does issued d t (.perform 0 (.express i :: rest) anyRefused)
        { discovery := d.refused i, transport := t', expressed := [i]
          tasks := [.perform 0 rest true] }
  | expressWaits {i : Interest} (rest : List Action) (anyRefused : Bool)
      {t' : Transport Handler} (ht : t.express i (.retrieval 0) = (t', .waiting)) :
      Does issued d t (.perform 0 (.express i :: rest) anyRefused)
        { discovery := d, transport := t', expressed := [i]
          tasks := [.settle 0 i, .perform 0 rest anyRefused] }
  | expressAnswered {i : Interest} (rest : List Action) (anyRefused : Bool)
      {t' : Transport Handler} {c : Content}
      (ht : t.express i (.retrieval 0) = (t', .answered c)) :
      Does issued d t (.perform 0 (.express i :: rest) anyRefused)
        { discovery := d, transport := t', expressed := [i]
          tasks := [.arrive (.retrieval 0) c i, .settle 0 i, .perform 0 rest anyRefused] }
  | settleKeeps {i : Interest} (hkeep : (d.settled i).2 = .keep) :
      Does issued d t (.settle 0 i) { discovery := (d.settled i).1, transport := t }
  | settleCancels {i : Interest} (hkeep : (d.settled i).2 ≠ .keep) :
      Does issued d t (.settle 0 i)
        { discovery := (d.settled i).1, transport := t.cancel i (.retrieval 0) }
  | arrive (now : Time) (c : Content) (i : Interest) :
      Does issued d t (.arrive (.retrieval 0) c i)
        { discovery := (d.arrive now c i).discovery, transport := t
          tasks := .perform 0 (d.arrive now c i).actions false ::
            if (d.arrive now c i).delivers then [.handOver 0 c i] else [] }
  | timeout (now : Time) (i : Interest) : Does issued d t (.timeout (.retrieval 0) i)
      { discovery := (d.timeout now i).1, transport := t
        tasks := [.perform 0 (d.timeout now i).2 false] }
  | handOver (c : Content) (i : Interest) (hrun : d.isRunning = true) :
      Does issued d t (.handOver 0 c i) { discovery := d, transport := t, handed := [c] }
  | handOverDropped (c : Content) (i : Interest) (hrun : d.isRunning = false) :
      Does issued d t (.handOver 0 c i) { discovery := d, transport := t }
  | publishedAll (answered : Nat) : Does issued d t (.publishAll [] answered)
      { discovery := d, transport := t }
  | publishNext {c : Content} (cs : List Content) (answered : Nat) {t' : Transport Handler}
      (ht : t.publish c = (t', none)) :
      Does issued d t (.publishAll (c :: cs) answered)
        { discovery := d, transport := t', tasks := [.publishAll cs answered] }
  | publishNextAnswers {c : Content} (cs : List Content) (answered : Nat)
      {t' : Transport Handler} {p : Pending Handler} (ht : t.publish c = (t', some p)) :
      Does issued d t (.publishAll (c :: cs) answered)
        { discovery := d, transport := t'
          tasks := [.arrive p.handler c p.interest, .publishAll cs (answered + 1)] }
  | timedOutAll (total : Nat) : Does issued d t (.timeoutAll [] total)
      { discovery := d, transport := t }
  | timeoutNext (p : Pending Handler) (ps : List (Pending Handler)) (total : Nat) :
      Does issued d t (.timeoutAll (p :: ps) total)
        { discovery := d, transport := t
          tasks := [.timeout p.handler p.interest, .timeoutAll ps total] }
  | refreshedAll (now : Time) (reissued : Nat) : Does issued d t (.refreshAll [] now reissued)
      { discovery := d, transport := t }
  | refreshNext (ids : List Nat) (now : Time) (reissued : Nat) {reissued' : Nat} :
      Does issued d t (.refreshAll (0 :: ids) now reissued)
        { discovery := (d.refresh now).1, transport := t
          tasks := [.perform 0 (d.refresh now).2 false, .refreshAll ids now reissued'] }

namespace Session

def handed (s : Session) : List Content := s.log.filterMap Event.handed?

structure Solo (o : ListenerId) (s : Session) (d : Discovery) : Prop where
  retrievals : ∃ f, s.retrievals = [{ discovery := d, owner := .listener o, fanOut := f }]
  passive : (s.script o).calls = []

/-- The session comes to `s'` by the effect, with `rest` left of its agenda. -/
structure Leads (o : ListenerId) (s s' : Session) (rest : List Task) (e : Effect) : Prop where
  solo : Solo o s' e.discovery
  transport : s'.transport = e.transport
  issued : s'.issued = s.issued ++ e.expressed
  handed : s'.handed = e.handed ++ s.handed
  agenda : s'.agenda = e.tasks ++ rest

section Solo

variable {o : ListenerId} {s : Session} {d : Discovery}

theorem withRetrieval_only
    (h : ∃ f, s.retrievals = [{ discovery := d, owner := .listener o, fanOut := f }]) :
    ∃ r : Retrieval, r.discovery = d ∧ r.owner = .listener o ∧ ∀ f, s.withRetrieval 0 f = f r := by
  obtain ⟨fanOut, hr⟩ := h
  refine ⟨{ discovery := d, owner := .listener o, fanOut }, rfl, rfl, fun f => ?_⟩
  rw [withRetrieval, hr]
  rfl

theorem Solo.withRetrieval_eq (h : Solo o s d) : ∃ r : Retrieval, r.discovery = d ∧
    r.owner = .listener o ∧ ∀ f, s.withRetrieval 0 f = f r :=
  withRetrieval_only h.retrievals

theorem Solo.onTarget_eq (h : Solo o s d) :
    ∃ r : Retrieval, r.discovery = d ∧ ∀ f, s.onTarget .first f = f 0 r := by
  obtain ⟨⟨fanOut, hr⟩, -⟩ := h
  refine ⟨{ discovery := d, owner := .listener o, fanOut }, rfl, fun f => ?_⟩
  rw [onTarget, retrievalOf, resolve]
  simp only [hr]
  rfl

theorem Solo.modifyDiscovery (h : Solo o s d) (f : Discovery → Discovery) :
    Solo o (s.modifyDiscovery 0 f) (f d) := by
  obtain ⟨⟨fanOut, hr⟩, hpassive⟩ := h
  refine ⟨⟨fanOut, ?_⟩, hpassive⟩
  rw [Session.modifyDiscovery, modifyRetrieval, hr]
  rfl

theorem Solo.leads_reply (h : Solo o s d) (a : Answer) :
    Leads o s (s.reply a) s.agenda { discovery := d, transport := s.transport } :=
  ⟨⟨h.retrievals, h.passive⟩, rfl, (List.append_nil _).symm, rfl, rfl⟩

theorem Solo.leads_push (h : Solo o s d) (t : Transport Handler) (tasks : List Task) :
    Leads o s (({ s with transport := t } : Session).push tasks) s.agenda
      { discovery := d, transport := t, tasks } :=
  ⟨⟨h.retrievals, h.passive⟩, rfl, (List.append_nil _).symm, rfl, rfl⟩

theorem Solo.leads_act (h : Solo o s d) (d' : Discovery) (actions : List Action)
    (after : List Task) :
    Leads o s (s.act 0 (d', actions) after) s.agenda
      { discovery := d', transport := s.transport
        tasks := .perform 0 actions false :: after } := by
  have hsolo := h.modifyDiscovery fun _ => d'
  exact ⟨⟨hsolo.retrievals, hsolo.passive⟩, rfl, (List.append_nil _).symm, rfl, rfl⟩

theorem Solo.does_publish (h : Solo o s d) (c : Content) (after : Bool → List Task) :
    ∃ e, Leads o s (s.publish c after) s.agenda e ∧
      ((∃ t, s.transport.publish c = (t, none) ∧
        e = { discovery := d, transport := t, tasks := after false }) ∨
      ∃ t p, s.transport.publish c = (t, some p) ∧
        e = { discovery := d, transport := t
              tasks := .arrive p.handler c p.interest :: after true }) := by
  rw [Session.publish]
  split
  · rename_i t ht
    exact ⟨_, h.leads_push t _, .inl ⟨t, ht, rfl⟩⟩
  · rename_i t p ht
    exact ⟨_, h.leads_push t _, .inr ⟨t, p, ht, rfl⟩⟩

theorem Solo.does_perform (h : Solo o s d) (actions : List Action) (anyRefused : Bool) :
    ∃ e, Does s.issued d s.transport (.perform 0 actions anyRefused) e ∧
      Leads o s (s.perform 0 anyRefused actions) s.agenda e := by
  cases actions with
  | nil => exact ⟨_, .performed anyRefused, h.leads_reply _⟩
  | cons action rest =>
    cases action with
    | cancel i =>
      have hsolo := h.modifyDiscovery (·.cancelled)
      refine ⟨_, .cancel i rest anyRefused, ?_⟩
      exact ⟨⟨hsolo.retrievals, hsolo.passive⟩, rfl, (List.append_nil _).symm, rfl, rfl⟩
    | express i =>
      rw [Session.perform]
      simp only
      split
      · rename_i t ht
        have hsolo := h.modifyDiscovery (·.refused i)
        refine ⟨_, .expressRefused rest anyRefused ht, ?_⟩
        exact ⟨⟨hsolo.retrievals, hsolo.passive⟩, rfl, rfl, rfl, rfl⟩
      · rename_i t ht
        refine ⟨_, .expressWaits rest anyRefused ht, ?_⟩
        exact ⟨⟨h.retrievals, h.passive⟩, rfl, rfl, rfl, rfl⟩
      · rename_i t c ht
        refine ⟨_, .expressAnswered rest anyRefused ht, ?_⟩
        exact ⟨⟨h.retrievals, h.passive⟩, rfl, rfl, rfl, rfl⟩

theorem Solo.does_settle (h : Solo o s d) (i : Interest) :
    ∃ e, Does s.issued d s.transport (.settle 0 i) e ∧ Leads o s (s.settle 0 i) s.agenda e := by
  obtain ⟨r, rfl, -, hr⟩ := h.withRetrieval_eq
  rw [Session.settle, hr]
  have hsolo := h.modifyDiscovery fun _ => (r.discovery.settled i).1
  cases hsettled : (r.discovery.settled i).2 with
  | keep =>
    refine ⟨_, .settleKeeps hsettled, ?_⟩
    simp only [hsettled]
    exact ⟨⟨hsolo.retrievals, hsolo.passive⟩, rfl, (List.append_nil _).symm, rfl, rfl⟩
  | withdraw =>
    refine ⟨_, .settleCancels (by simp [hsettled]), ?_⟩
    simp only [hsettled]
    exact ⟨⟨hsolo.retrievals, hsolo.passive⟩, rfl, (List.append_nil _).symm, rfl, rfl⟩
  | superseded =>
    refine ⟨_, .settleCancels (by simp [hsettled]), ?_⟩
    simp only [hsettled]
    exact ⟨⟨hsolo.retrievals, hsolo.passive⟩, rfl, (List.append_nil _).symm, rfl, rfl⟩

theorem Solo.leads_call (h : Solo o s d) (c : Content) (i : Interest) :
    Leads o s (s.call o (.deliver o c i) fun _ => []) s.agenda
      { discovery := d, transport := s.transport, handed := [c] } := by
  have hpush : s.call o (.deliver o c i) (fun _ => []) =
      ((s.record (.deliver o c i)).countCall o).push [] := by
    rw [call, Script.stepsAt, h.passive]
    rfl
  rw [hpush]
  exact ⟨⟨h.retrievals, h.passive⟩, rfl, (List.append_nil _).symm, rfl, rfl⟩

theorem Solo.does_handOver (h : Solo o s d) (c : Content) (i : Interest) :
    ∃ e, Does s.issued d s.transport (.handOver 0 c i) e ∧
      Leads o s (s.handOver 0 c i) s.agenda e := by
  obtain ⟨r, rfl, howner, hr⟩ := h.withRetrieval_eq
  rw [Session.handOver, hr, howner]
  cases hrun : r.discovery.isRunning with
  | true => exact ⟨_, .handOver c i hrun, h.leads_call c i⟩
  | false =>
    exact ⟨_, .handOverDropped c i hrun, ⟨h, rfl, (List.append_nil _).symm, rfl, rfl⟩⟩

theorem Solo.does_arrive (h : Solo o s d) (c : Content) (i : Interest) :
    ∃ e, Does s.issued d s.transport (.arrive (.retrieval 0) c i) e ∧
      Leads o s (s.arrive c i (.retrieval 0)) s.agenda e := by
  obtain ⟨r, rfl, -, hr⟩ := h.withRetrieval_eq
  rw [Session.arrive, hr]
  exact ⟨_, .arrive s.now c i, h.leads_act _ _ _⟩

theorem Solo.does_timeout (h : Solo o s d) (i : Interest) :
    ∃ e, Does s.issued d s.transport (.timeout (.retrieval 0) i) e ∧
      Leads o s (s.timeout i (.retrieval 0)) s.agenda e := by
  obtain ⟨r, rfl, -, hr⟩ := h.withRetrieval_eq
  rw [Session.timeout, hr]
  exact ⟨_, .timeout s.now i, h.leads_act _ _ _⟩

theorem Solo.does_refreshNext (h : Solo o s d) (now : Time) (reissued : Nat) {ids : List Nat}
    (hids : ∀ id ∈ ids, id = 0) :
    ∃ e, Does s.issued d s.transport (.refreshAll ids now reissued) e ∧
      Leads o s (s.refreshNext now reissued ids) s.agenda e := by
  cases ids with
  | nil => exact ⟨_, .refreshedAll now reissued, h.leads_reply _⟩
  | cons id ids =>
    obtain rfl := hids id List.mem_cons_self
    obtain ⟨r, rfl, -, hr⟩ := h.withRetrieval_eq
    rw [Session.refreshNext, hr]
    exact ⟨_, .refreshNext ids now reissued, h.leads_act _ _ _⟩

theorem Solo.does_publishNext (h : Solo o s d) (answered : Nat) (cs : List Content) :
    ∃ e, Does s.issued d s.transport (.publishAll cs answered) e ∧
      Leads o s (s.publishNext answered cs) s.agenda e := by
  cases cs with
  | nil => exact ⟨_, .publishedAll answered, h.leads_reply _⟩
  | cons c cs =>
    obtain ⟨e, hleads, ⟨t, ht, rfl⟩ | ⟨t, p, ht, rfl⟩⟩ :=
      h.does_publish c fun hit => [.publishAll cs (if hit then answered + 1 else answered)]
    · exact ⟨_, .publishNext cs answered ht, hleads⟩
    · exact ⟨_, .publishNextAnswers cs answered ht, hleads⟩

theorem Solo.does_timeoutNext (h : Solo o s d) (total : Nat) (ps : List (Pending Handler)) :
    ∃ e, Does s.issued d s.transport (.timeoutAll ps total) e ∧
      Leads o s (s.timeoutNext total ps) s.agenda e := by
  cases ps with
  | nil => exact ⟨_, .timedOutAll total, h.leads_reply _⟩
  | cons p ps => exact ⟨_, .timeoutNext p ps total, h.leads_push _ _⟩

section Run

variable (h : Solo o s d)

include h

theorem Solo.does_timeoutCommand (ref : InterestRef) :
    ∃ e, Does s.issued d s.transport (.command (.timeout .first ref)) e ∧
      Leads o s (s.run (.timeout .first ref)) s.agenda e := by
  obtain ⟨r, rfl, hr⟩ := h.onTarget_eq
  rw [run, onInterest]
  split
  · exact ⟨_, .unknownTimeout ref, h.leads_reply _⟩
  · rename_i i hi
    rw [hr]
    exact ⟨_, .knownTimeout ref i, h.leads_push _ _⟩

theorem Solo.does_arriveCommand (c : Content) (k : Nat) :
    ∃ e, Does s.issued d s.transport (.command (.arrive .first c (.issued k))) e ∧
      Leads o s (s.run (.arrive .first c (.issued k))) s.agenda e := by
  obtain ⟨r, rfl, hr⟩ := h.onTarget_eq
  rw [run, onInterest, interestOf]
  cases hi : s.issued[k]? with
  | none => exact ⟨_, .unknownArrival c k, h.leads_reply _⟩
  | some i =>
    simp only [hr]
    exact ⟨_, .knownArrival c hi, h.leads_push _ _⟩

theorem Solo.does_run {c : Command} (hc : c.Local) :
    ∃ e, Does s.issued d s.transport (.command c) e ∧ Leads o s (s.run c) s.agenda e := by
  obtain ⟨r, hd, hr⟩ := h.onTarget_eq
  subst hd
  unfold Command.Local at hc
  split at hc
  · rw [run, hr]
    exact ⟨_, .start s.now, h.leads_act _ _ _⟩
  · rw [run, hr]
    exact ⟨_, .stop, h.leads_act _ _ _⟩
  · rename_i now
    rw [run, hr]
    exact ⟨_, .refresh now, h.leads_push _ _⟩
  · rename_i ref
    exact h.does_timeoutCommand ref
  · rename_i c k
    exact h.does_arriveCommand c k
  · rename_i c
    obtain ⟨e, hleads, ⟨t, ht, rfl⟩ | ⟨t, p, ht, rfl⟩⟩ :=
      h.does_publish c fun hit => [.answer (.flag hit)]
    · exact ⟨_, .publish ht, hleads⟩
    · exact ⟨_, .publishAnswers ht, hleads⟩
  · rename_i cs
    exact ⟨_, .publishMany cs, h.leads_push _ _⟩
  · exact ⟨_, .expire, h.leads_push _ _⟩
  · cases hc

theorem Solo.does_doTask {task : Task} (hlocal : task.Local) :
    ∃ e, Does s.issued d s.transport task e ∧ Leads o s (s.doTask task) s.agenda e := by
  unfold Task.Local at hlocal
  split at hlocal
  · exact h.does_run hlocal
  · rename_i a
    exact ⟨_, .answer a, h.leads_reply a⟩
  · subst hlocal
    exact h.does_perform _ _
  · subst hlocal
    exact h.does_settle _
  · subst hlocal
    exact h.does_arrive _ _
  · subst hlocal
    exact h.does_timeout _
  · subst hlocal
    exact h.does_handOver _ _
  · exact h.does_publishNext _ _
  · exact h.does_timeoutNext _ _
  · exact h.does_refreshNext _ _ hlocal
  · cases hlocal

end Run

/-- One step does what its first task is said to do. -/
theorem Solo.step_does (h : Solo o s d) {task : Task} {rest : List Task}
    (hagenda : s.agenda = task :: rest) (hlocal : task.Local) :
    ∃ e, Does s.issued d s.transport task e ∧ Leads o s s.step rest e := by
  have htaken : Solo o { s with agenda := rest, steps := s.steps + 1 } d :=
    ⟨h.retrievals, h.passive⟩
  obtain ⟨e, hdoes, hleads⟩ := htaken.does_doTask hlocal
  refine ⟨e, hdoes, ?_⟩
  rw [step, hagenda]
  exact ⟨hleads.solo, hleads.transport, hleads.issued, hleads.handed, hleads.agenda⟩

end Solo

end Session

end NamedContent
