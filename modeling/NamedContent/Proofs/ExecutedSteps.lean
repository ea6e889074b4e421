import NamedContent.Proofs.SessionLookups

/-! Every step is of one of the kinds. -/

namespace NamedContent.Session

section Dispatch

variable (s : Session)

theorem executed_withRetrieval {task : Task} {id : Nat} {f : Retrieval → Session}
    (horders : s.retrievals[id]? = none → task.Orders s none) (hskips : ∀ k, k ≠ id → task.Skips k)
    (hf : ∀ r, s.retrievals[id]? = some r → Executed s task (f r)) :
    Executed s task (s.withRetrieval id f) := by
  refine withRetrieval_cases (K := Executed s task) (fun hnone => ?_) hf
  refine .passes (horders hnone) fun k r hk => hskips k ?_
  rintro rfl
  rw [hnone] at hk
  cases hk

theorem executed_onTarget {c : Command} (t : Target) (hop : c.op? s = none)
    {f : Nat → Retrieval → Session}
    (hf : ∀ id r, s.retrievals[id]? = some r → Executed s (.command c) (f id r)) :
    Executed s (.command c) (s.onTarget t f) :=
  onTarget_cases (K := Executed s (.command c)) t (fun _ => .reply _ hop) hf

theorem executed_onInterest {c : Command} (t : Target) (ref : InterestRef)
    (hop : (∀ i, s.interestOf t ref ≠ .ok i) → c.op? s = none) {f : Interest → Session}
    (hf : ∀ i, s.interestOf t ref = .ok i → Executed s (.command c) (f i)) :
    Executed s (.command c) (s.onInterest t ref f) :=
  onInterest_cases (K := Executed s (.command c)) t ref (fun _ h => .reply _ (hop h)) hf

theorem executed_onRegistry {c : Command} (hop : c.op? s = none) {f : Registry → Session}
    (hf : ∀ registry, s.registry = some registry → Executed s (.command c) (f registry)) :
    Executed s (.command c) (s.onRegistry f) :=
  onRegistry_cases (K := Executed s (.command c)) (fun _ => .reply _ hop) hf

theorem executed_publish {task : Task} {c : Content} (htask : task.Publishes c)
    {after : Bool → List Task} (hafter : ∀ hit, ∀ task ∈ after hit, task.Light) :
    Executed s task (s.publish c after) := by
  rw [publish]
  split
  · rename_i t ht
    exact .publishes htask ht (hafter false)
  · rename_i t p ht
    exact .publishAnswers htask ht (hafter true)

theorem executed_expressDirectly (l : ListenerId) (t : Target) (ref : InterestRef) :
    Executed s (.command (.expressDirectly l t ref)) (s.run (.expressDirectly l t ref)) := by
  have hop : Command.op? s (.expressDirectly l t ref) =
      (s.interestOf t ref).toOption.map (.express · (.listener l)) := rfl
  refine s.executed_onInterest t ref (fun h => ?_) fun i hi => ?_
  · rw [hop, toOption_eq_none h, Option.map_none]
  · rw [hi] at hop
    rw [expressDirectly]
    split
    · rename_i t' ht
      exact .aside _ (hop ▸ .express ht)
    · rename_i t' ht
      exact .aside _ (hop ▸ .express ht)
    · rename_i t' c ht
      exact .commands s.answer (hop ▸ .express ht)
        (List.forall_mem_cons.2 ⟨(Task.Light.arrive l c i).follows id,
          List.forall_mem_singleton.2 ((Task.Light.answer _).follows id)⟩)

theorem executed_cancelDirectly (l : ListenerId) (t : Target) (ref : InterestRef) :
    Executed s (.command (.cancelDirectly l t ref)) (s.run (.cancelDirectly l t ref)) := by
  have hop : Command.op? s (.cancelDirectly l t ref) =
      (s.interestOf t ref).toOption.map (.cancel · (.listener l)) := rfl
  refine s.executed_onInterest t ref (fun h => ?_) fun i hi => ?_
  · rw [hop, toOption_eq_none h, Option.map_none]
  · rw [hi] at hop
    exact .aside _ (hop ▸ .cancel _ i l)

theorem executed_perform (id : Nat) (anyRefused : Bool) (actions : List Action) :
    Executed s (.perform id actions anyRefused) (s.perform id anyRefused actions) := by
  cases actions with
  | nil => exact .replies _ ⟨rfl, rfl, rfl⟩ fun k _ _ => .of_stops_nil (by simp [Task.duties]) rfl
  | cons action rest =>
    cases action with
    | cancel i => exact .cancels id i rest anyRefused
    | express i =>
      rw [perform]
      simp only
      split
      · rename_i t ht
        exact .expressRefused rest anyRefused ht
      · rename_i t ht
        exact .expressWaits rest anyRefused ht
      · rename_i t c ht
        exact .expressAnswered rest anyRefused ht

theorem executed_settle (id : Nat) (i : Interest) :
    Executed s (.settle id i) (s.settle id i) := by
  refine s.executed_withRetrieval (fun hnone => ?_) (fun k hk => ?_) fun r hr => ?_
  · exact ⟨by simp [Task.op?, hnone], rfl, rfl⟩
  · exact .of_stops_nil (by simp [Task.duties, Ne.symm hk]) rfl
  · dsimp only
    split
    · rename_i hkeep
      exact .settleKeeps hr hkeep
    · rename_i hkeep
      exact .settleCancels hr (by simp [hkeep])
    · rename_i hkeep
      exact .settleCancels hr (by simp [hkeep])

theorem executed_arrive (c : Content) (i : Interest) (h : Handler) :
    Executed s (.arrive h c i) (s.arrive c i h) := by
  cases h with
  | listener l => exact .callsBack l True.intro (by simp)
  | retrieval id =>
    refine s.executed_withRetrieval (fun _ => ⟨rfl, rfl, rfl⟩) (fun k hk => ?_)
      fun r hr => .arrives c i hr
    exact .of_stops_nil (by simp [Task.duties, Ne.symm hk]) rfl

theorem executed_timeout (i : Interest) (h : Handler) :
    Executed s (.timeout h i) (s.timeout i h) := by
  cases h with
  | listener l => exact .callsBack l True.intro (by simp)
  | retrieval id =>
    refine s.executed_withRetrieval (fun _ => ⟨rfl, rfl, rfl⟩) (fun k hk => ?_)
      fun r hr => .timesOut i hr
    exact .of_stops_nil (by simp [Task.duties, Ne.symm hk]) rfl

theorem executed_handOver (id : Nat) (c : Content) (i : Interest) :
    Executed s (.handOver id c i) (s.handOver id c i) := by
  have hspares : s.Spares (.handOver id c i) := fun _ _ _ => .of_stops_nil rfl rfl
  have horders : Task.Orders s none (.handOver id c i) := ⟨rfl, rfl, rfl⟩
  refine s.executed_withRetrieval (fun _ => horders) (fun _ _ => .of_stops_nil rfl rfl)
    fun r hr => ?_
  split
  · rename_i hrun
    split
    · rename_i l howner
      exact .handsTo c i hr hrun howner
    · rename_i howner
      exact .handsOver c i hr hrun howner
    · exact .passes horders hspares
  · exact .passes horders hspares

theorem executed_fanOut (id : Nat) (c : Content) (i : Interest) (ls : List ListenerId) :
    Executed s (.fanOut id ls c i) (s.fanOut id c i ls) := by
  have hspares : s.Spares (.fanOut id ls c i) := fun _ _ _ => .of_stops_nil rfl rfl
  have horders : Task.Orders s none (.fanOut id ls c i) := ⟨rfl, rfl, rfl⟩
  cases ls with
  | nil => exact .passes horders hspares
  | cons l rest =>
    refine s.executed_withRetrieval (fun _ => horders) (fun _ _ => .of_stops_nil rfl rfl)
      fun r hr => ?_
    split
    · exact .passes horders hspares
    · rename_i hrun
      split
      · exact .skips id l rest c i
      · exact .fansOut l rest c i hr (by simpa using hrun)

theorem executed_start (t : Target) (id : Nat) :
    Executed s (.command (.start t)) (s.startRetrieval id []) := by
  refine s.executed_withRetrieval (fun _ => ⟨rfl, rfl, rfl⟩) (fun _ _ => .of_stops_nil rfl rfl)
    fun r hr => ?_
  split
  · rename_i hphase
    have hstarts : Command.Starts (.start t) := True.intro
    exact .starts hstarts hr _ (by simp [hphase])
  · exact .push rfl (List.forall_mem_singleton.2 ((Task.Light.answer _).follows fun h => h))

theorem executed_stopNext (ids : List Nat) : Executed s (.stopAll ids) (s.stopNext ids) := by
  cases ids with
  | nil => exact .passes ⟨rfl, rfl, rfl⟩ fun _ _ _ => .of_stops_nil rfl rfl
  | cons id rest =>
    refine s.executed_withRetrieval (fun _ => ⟨rfl, rfl, rfl⟩) (fun k hk => ⟨rfl, ?_⟩) fun r hr =>
      .stopsNext rest hr
    simpa [Task.stops] using Ne.symm hk

theorem modifyFanOut_self (id : Nat) : (s.modifyFanOut id fun g => g) = s := by
  have hmodify : s.retrievals.modify id (fun r => r) = s.retrievals := List.modify_id id _
  rw [modifyFanOut, modifyRetrieval, hmodify]

theorem modifyFanOut_modifyFanOut (id : Nat) (f g : FanOut → FanOut) :
    (s.modifyFanOut id f).modifyFanOut id g = s.modifyFanOut id (g ∘ f) := by
  simp only [modifyFanOut, modifyRetrieval, List.modify_modify_eq]
  rfl

theorem bind_find?_eq_some {n : Name} {registry : Registry} {id : Nat} :
    (s.registry.bind fun registry => (registry.find? n).map (registry, ·)) = some (registry, id) ↔
      s.registry = some registry ∧ registry.find? n = some id := by
  cases s.registry with
  | none => simp
  | some registry' =>
    simp only [Option.bind_some, Option.map_eq_some_iff, Prod.mk.injEq, Option.some.injEq]
    constructor
    · rintro ⟨id', hfind, rfl, rfl⟩
      exact ⟨rfl, hfind⟩
    · rintro ⟨rfl, hfind⟩
      exact ⟨id, hfind, rfl, rfl⟩

theorem stopRetrieval_remove {id : Nat} {r : Retrieval} (hr : s.retrievals[id]? = some r)
    (l : ListenerId) (registry : Option Registry) (after : List Task) :
    ({ s.modifyFanOut id (·.remove l) with registry } : Session).stopRetrieval id after =
      (({ s with registry } : Session).modifyFanOut id fun f => (f.remove l).markStopped).act id
        r.discovery.stop after := by
  have hr' : ({ s.modifyFanOut id (·.remove l) with registry } : Session).retrievals[id]? =
      some { r with fanOut := r.fanOut.remove l } := by
    simp [modifyFanOut, modifyRetrieval, hr]
  have hmodify := modifyFanOut_modifyFanOut { s with registry } id (·.remove l) (·.markStopped)
  rw [Function.comp_def FanOut.markStopped] at hmodify
  rw [stopRetrieval, withRetrieval, hr', ← hmodify]
  rfl

theorem executed_withdraw {task : Task} (htask : task.Tends) (n : Name) (l : ListenerId)
    (instead : Option Answer) : Executed s task (s.withdraw n l instead) := by
  have hspares : s.Spares task := fun k _ _ => htask.skips k
  have horders : task.Orders s none := htask.orders s
  rw [withdraw]
  simp only
  split
  · exact .replies _ horders hspares
  · rename_i registry id hfind
    obtain ⟨hregistry, -⟩ := s.bind_find?_eq_some.1 hfind
    refine s.executed_withRetrieval (fun _ => horders) (fun k _ => htask.skips k) fun r hr => ?_
    split
    · split
      · rw [s.stopRetrieval_remove hr]
        exact .stops (f := fun f => (f.remove l).markStopped) htask hr (fun _ => rfl)
          (fun _ => rfl) (.erase hregistry n) _ fun _ _ => List.filter_sublist
      · exact .tends _ htask (fun _ hg => hg) (fun g => g.failures_remove l)
          fun _ _ => List.filter_sublist
    · exact .replies _ horders hspares

theorem absurd_command {p : Prop} {c : Command} (h : (Task.command c).command? = none) : p := by
  cases h

theorem express_eq_registered {registry : Registry} {n : Name} (hnew : registry.find? n = none)
    (l : ListenerId) (exclusions : List Version) (floor : Option Version) :
    s.express registry n l exclusions floor =
      s.registered registry n l
        (.create n registry.config registry.trust exclusions floor) := by
  rw [express, hnew]
  simp only [startRetrieval, withRetrieval, getElem?_append_cons, if_true, act, modifyDiscovery,
    modifyFanOut, modifyRetrieval, modify_append_cons, push, registered]
  rfl

theorem executed_express {registry : Registry} (hregistry : s.registry = some registry) (n : Name)
    (l : ListenerId) (ticks : List UInt64) (floorTicks : Option UInt64)
    {exclusions : List Version} (hrange : ∀ v ∈ exclusions, v.InRange) (floor : Option Version) :
    Executed s (.command (.express n l ticks floorTicks))
      (s.express registry n l exclusions floor) := by
  cases hfind : registry.find? n with
  | none =>
    rw [s.express_eq_registered hfind]
    exact .registers hregistry n l ticks floorTicks hrange floor hfind
  | some id =>
    rw [express, hfind]
    refine .tends _ True.intro (fun g hg => ?_) (fun g => g.failures_add l) absurd_command
    rw [FanOut.add]
    split <;> exact hg

theorem executed_run (c : Command) : Executed s (.command c) (s.run c) := by
  cases c with
  | publish c =>
    rw [Session.run]
    exact s.executed_publish .command fun _ => List.forall_mem_singleton.2 (.answer _)
  | publishAll =>
    exact .push rfl (List.forall_mem_singleton.2 ((Task.Light.publishAll _ _).follows id))
  | expireAll => exact .expires
  | refuseNext n => exact .aside _ (.refuseNext _ n)
  | expressDirectly l t ref => exact s.executed_expressDirectly l t ref
  | cancelDirectly l t ref => exact s.executed_cancelDirectly l t ref
  | startDiscovery t =>
    refine s.executed_onTarget t rfl fun id r hr => ?_
    have hstarts : Command.Starts (.startDiscovery t) := True.intro
    have hstart : Executed s (.command (.startDiscovery t))
        ((s.modifyFanOut id fun g => g).act id (r.discovery.start s.now) []) :=
      .starts hstarts hr _ fun h => h
    rwa [modifyFanOut_self] at hstart
  | stopDiscovery t =>
    refine s.executed_onTarget t rfl fun id r hr => ?_
    have htends : Task.Tends (.command (.stopDiscovery t)) := True.intro
    have hstop : Executed s (.command (.stopDiscovery t))
        ((s.modifyFanOut id fun g => g).act id r.discovery.stop [.answer .done]) :=
      .stops htends hr (fun h => h) (fun _ => rfl) (.refl s) _ absurd_command
    rwa [modifyFanOut_self] at hstop
  | arrive t c ref =>
    refine s.executed_onInterest t ref (fun _ => rfl) fun i _ => ?_
    refine s.executed_onTarget t rfl fun id r _ => .asks (fun h => h) ?_
    simp [Task.Tells.arrive, Task.Tells.answer]
  | arriveAll t base ref ticks =>
    refine s.executed_onInterest t ref (fun _ => rfl) fun i _ => ?_
    split
    · exact .reply _ rfl
    · refine s.executed_onTarget t rfl fun id r _ => .asks (fun h => h) fun task htask => ?_
      simp only [arrivals, List.mem_append, List.mem_map, List.mem_singleton] at htask
      rcases htask with ⟨v, -, rfl⟩ | rfl
      · exact ⟨.arrive _ _ _, .arrive _ _ _⟩
      · exact ⟨.answer _, .answer _⟩
  | timeout t ref =>
    refine s.executed_onInterest t ref (fun _ => rfl) fun i _ => ?_
    refine s.executed_onTarget t rfl fun id r _ => .asks (fun h => h) ?_
    simp [Task.Tells.timeout, Task.Tells.answer]
  | areExcluded t => exact s.executed_onTarget t rfl fun id r _ => .reply _ rfl
  | describe t => exact s.executed_onTarget t rfl fun id r _ => .reply _ rfl
  | outstandingWire t => exact s.executed_onTarget t rfl fun id r _ => .reply _ rfl
  | dropOwner t => exact s.executed_onTarget t rfl fun id r _ => .dropsOwner t id
  | start t => exact s.executed_onTarget t rfl fun id r _ => s.executed_start t id
  | stop t =>
    refine s.executed_onTarget t rfl fun id r _ => ?_
    refine s.executed_withRetrieval (fun _ => ⟨rfl, rfl, rfl⟩) (fun _ _ => .of_stops_nil rfl rfl)
      fun r hr => ?_
    have htends : Task.Tends (.command (.stop t)) := True.intro
    exact .stops htends hr (fun _ => rfl) FanOut.failures_markStopped (.refl s) _ absurd_command
  | markStopped t =>
    exact s.executed_onTarget t rfl fun id r _ =>
      .tends _ True.intro (fun _ _ => rfl) FanOut.failures_markStopped absurd_command
  | addListener t l =>
    refine s.executed_onTarget t rfl fun id r _ => ?_
    refine .tends _ True.intro (fun g hg => ?_) (fun g => g.failures_add l) absurd_command
    rw [FanOut.add]
    split <;> exact hg
  | removeListener t l =>
    exact s.executed_onTarget t rfl fun id r _ =>
      .tends _ True.intro (fun _ hg => hg) (fun g => g.failures_remove l) absurd_command
  | refresh t now =>
    have hrefreshes : Command.Refreshes (.refresh t now) := True.intro
    exact s.executed_onTarget t rfl fun id r _ =>
      .push rfl (List.forall_mem_singleton.2 (.refreshAll hrefreshes _ _ _))
  | handOver t c ref =>
    refine s.executed_onInterest t ref (fun _ => rfl) fun i _ => ?_
    refine s.executed_onTarget t rfl fun id r _ => .push rfl ?_
    have hcalls : ¬ Command.CallsNobody (.handOver t c ref) := fun h => h
    have hanswer := List.forall_mem_singleton.2 ((Task.Light.answer .done).follows hcalls)
    split
    · exact List.forall_mem_cons.2 ⟨(Task.Light.fanOut _ _ _ _).follows hcalls, hanswer⟩
    · exact hanswer
  | metrics t => exact s.executed_onTarget t rfl fun id r _ => .reply _ rfl
  | express n l ticks floorTicks =>
    refine s.executed_onRegistry rfl fun registry hregistry => ?_
    split
    · exact .reply _ rfl
    · exact .reply _ rfl
    · rename_i hexclusions _
      obtain ⟨hrange, rfl⟩ := versionsOf_eq_ok_iff.1 hexclusions
      exact s.executed_express hregistry n l ticks floorTicks (List.forall_mem_map.2 hrange) _
  | withdraw n l =>
    have htends : Task.Tends (.command (.withdraw n l)) := True.intro
    exact s.executed_onRegistry rfl fun _ _ => s.executed_withdraw htends n l none
  | close =>
    have hcloses : Command.Closes .close := True.intro
    exact s.executed_onRegistry rfl fun registry hregistry =>
      .closes hcloses hregistry (.clear hregistry)
  | dropRegistry =>
    have hcloses : Command.Closes .dropRegistry := True.intro
    exact s.executed_onRegistry rfl fun _ hregistry => .closes hcloses hregistry (.none s)
  | keep n =>
    refine s.executed_onRegistry rfl fun registry hregistry => ?_
    cases hfind : registry.find? n with
    | none =>
      rw [keep, hfind]
      exact .reply _ rfl
    | some id => exact .keeps n id hregistry hfind
  | lookup n =>
    refine s.executed_onRegistry rfl fun registry _ => ?_
    rw [lookup]
    split <;> exact .reply _ rfl
  | registryConfig => exact s.executed_onRegistry rfl fun _ _ => .reply _ rfl
  | refreshAll now =>
    have hrefreshes : Command.Refreshes (.refreshAll now) := True.intro
    exact s.executed_onRegistry rfl fun _ _ =>
      .push rfl (List.forall_mem_singleton.2 (.refreshAll hrefreshes _ _ _))
  | refreshLoop ticks =>
    have hrefreshes : Command.Refreshes (.refreshLoop ticks) := True.intro
    exact s.executed_onRegistry rfl fun _ _ =>
      .push rfl (List.forall_mem_singleton.2 (.refreshLoop hrefreshes _))
  | invalid fault => exact .reply _ rfl

theorem executed_doTask (task : Task) : Executed s task (s.doTask task) := by
  have hends : ∀ {task : Task} (a : Answer), task.Orders s none → (∀ k, task.Skips k) →
      Executed s task (s.reply a) :=
    fun a horders hskips => .replies a horders fun k _ _ => hskips k
  cases task with
  | command c => exact s.executed_run c
  | record label => exact .records label
  | answer a => exact hends a ⟨rfl, rfl, rfl⟩ fun _ => .of_stops_nil rfl rfl
  | perform id actions anyRefused => exact s.executed_perform id anyRefused actions
  | settle id i => exact s.executed_settle id i
  | arrive handler c i => exact s.executed_arrive c i handler
  | timeout handler i => exact s.executed_timeout i handler
  | handOver id c i => exact s.executed_handOver id c i
  | fanOut id listeners c i => exact s.executed_fanOut id c i listeners
  | countFailure id => exact .countsFailure id
  | publishAll cs answered =>
    cases cs with
    | nil => exact hends _ ⟨rfl, rfl, rfl⟩ fun _ => .of_stops_nil rfl rfl
    | cons c rest =>
      rw [doTask, publishNext]
      exact s.executed_publish (.next rest answered) fun _ =>
        List.forall_mem_singleton.2 (.publishAll _ _)
  | timeoutAll ps total =>
    cases ps with
    | nil => exact .expired total
    | cons p rest => exact .timesOutNext p rest total
  | refreshAll ids now reissued =>
    cases ids with
    | nil => exact hends _ ⟨rfl, rfl, rfl⟩ fun _ => .of_stops_nil rfl rfl
    | cons id rest =>
      refine s.executed_withRetrieval (fun _ => ⟨rfl, rfl, rfl⟩) (fun _ _ => .of_stops_nil rfl rfl)
        fun r hr => ?_
      exact .refreshes rest now _ hr
  | refreshLoop times =>
    cases times with
    | zero => exact hends _ ⟨rfl, rfl, rfl⟩ fun _ => .of_stops_nil rfl rfl
    | succ times => exact .refreshesOnce _ _ times
  | stopAll ids => exact s.executed_stopNext ids
  | rollback n l =>
    rw [doTask, rollback]
    split
    · have htends : Task.Tends (.rollback n l) := True.intro
      exact s.executed_withdraw htends n l _
    · exact .passes ⟨rfl, rfl, rfl⟩ fun _ _ _ => .of_stops_nil rfl rfl

end Dispatch

def taken (s : Session) (rest : List Task) : Session :=
  { s with agenda := rest, steps := s.steps + 1 }

theorem step_cons {s : Session} {task : Task} {rest : List Task} (h : s.agenda = task :: rest) :
    s.step = (s.taken rest).doTask task := by
  rw [step, h]
  rfl

theorem step_executed {s : Session} {task : Task} {rest : List Task}
    (h : s.agenda = task :: rest) : Executed (s.taken rest) task s.step := by
  rw [step_cons h]
  exact executed_doTask _ task

theorem onRegistry_some {s : Session} {registry : Registry} (h : s.registry = some registry)
    (f : Registry → Session) : s.onRegistry f = f registry := by
  rw [onRegistry, h]

end NamedContent.Session
