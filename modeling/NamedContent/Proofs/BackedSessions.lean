import NamedContent.Proofs.CoveredInterests
import NamedContent.Proofs.StoppedRetrievals

/-! Sessions of any retrievals, with any listeners and any commands, in which arrivals may come out
of the blue and refreshes from inside a call. What a task cancels it expresses right after, save the
Interest of a slot that gives way to others unasked; and nothing else is done before that is. So
nothing that is outstanding is forgotten, and once a call has returned all of it waits at the
transport. -/

namespace NamedContent

namespace Task

/-- Whatever the task cancels for the retrieval it expresses right after. -/
def Steady (k : Nat) : Task → Prop
  | .perform id actions _ => id = k → Paired actions
  | _ => True

def Begun (k : Nat) : Task → Prop
  | .perform id actions _ => id = k → Paired actions.tail
  | _ => True

variable {task : Task} {k : Nat}

theorem Tells.steady (h : task.Tells) : task.Steady k := by
  cases task with
  | perform id actions anyRefused =>
    intro hid
    obtain ⟨is, his⟩ := h k
    rw [Task.duties, if_pos hid] at his
    cases actions with
    | nil => exact True.intro
    | cons action actions => cases action <;> cases is <;> cases his
  | _ => exact True.intro

theorem Idle.steady (h : task.Idle) : task.Steady k := h.tells.steady

theorem Steady.begun (h : task.Steady k) : task.Begun k := by
  cases task with
  | perform id actions anyRefused => exact fun hid => (h hid).tail
  | _ => exact True.intro

theorem Steady.offset (h : task.Steady k) : Offset (task.duties k) := by
  cases task with
  | perform id actions anyRefused =>
    rw [Task.duties]
    split
    · rename_i hid
      exact (h hid).offset
    · exact .of_answers []
  | settle id i =>
    intro j
    rw [Task.duties]
    split <;> simp
  | arrive handler c i =>
    rw [Task.duties]
    split
    · exact .of_answers [i]
    · exact .of_answers []
  | timeout handler i =>
    rw [Task.duties]
    split
    · exact .of_answers [i]
    · exact .of_answers []
  | timeoutAll ps total =>
    have hanswers := Offset.of_answers ((ps.filter (·.handler == .retrieval k)).map (·.interest))
    rw [List.map_map] at hanswers
    exact hanswers
  | _ => exact .of_answers []

theorem Begun.steady_or (h : task.Begun k) :
    task.Steady k ∨ ∃ i actions anyRefused,
      task = .perform k (.cancel i :: actions) anyRefused ∧ Paired actions := by
  cases task with
  | perform id actions anyRefused =>
    by_cases hid : id = k
    · subst hid
      cases actions with
      | nil => exact .inl fun _ => True.intro
      | cons action actions =>
        cases action with
        | express i => exact .inl fun _ => h rfl
        | cancel i => exact .inr ⟨i, actions, anyRefused, rfl, h rfl⟩
    · exact .inl fun hk => absurd hk hid
  | _ => exact .inl True.intro

end Task

def Steady (k : Nat) : List Task → Prop
  | [] => True
  | task :: rest => task.Begun k ∧ ∀ t ∈ rest, t.Steady k

section Steady

variable {k : Nat} {tasks rest : List Task}

theorem Steady.of_forall (h : ∀ t ∈ tasks, t.Steady k) : Steady k tasks := by
  cases tasks with
  | nil => exact True.intro
  | cons task tasks =>
    exact ⟨(h task List.mem_cons_self).begun, fun t ht => h t (List.mem_cons_of_mem task ht)⟩

theorem Steady.append (h : Steady k tasks) (hrest : ∀ t ∈ rest, t.Steady k) :
    Steady k (tasks ++ rest) := by
  cases tasks with
  | nil => exact .of_forall hrest
  | cons task tasks =>
    exact ⟨h.1, fun t ht => (List.mem_append.1 ht).elim (h.2 t) (hrest t)⟩

theorem offset_of_steady (h : ∀ t ∈ tasks, t.Steady k) : Offset (duties k tasks) := by
  induction tasks with
  | nil => exact .of_answers []
  | cons task tasks ih =>
    rw [duties_cons]
    exact (h task List.mem_cons_self).offset.append
      (ih fun t ht => h t (List.mem_cons_of_mem task ht))

end Steady

namespace Session

variable {s s' : Session} {task : Task} {rest : List Task} {k : Nat} {r : Retrieval}

/-- The retrieval `k` is there, and it has been stopped. -/
def Over (s : Session) (k : Nat) : Prop :=
  ∃ r, s.retrievals[k]? = some r ∧ r.discovery.phase = .stopped

theorem Over.step (h : s.Over k) (hlawful : s.Lawful) : s.step.Over k := by
  cases hagenda : s.agenda with
  | nil => rwa [step_of_nil hagenda]
  | cons task rest =>
    obtain ⟨r, hr, hphase⟩ := h
    obtain ⟨r', hr', -, hphase', -⟩ :=
      (step_executed hagenda).moves_stopped (hlawful.of_eq rfl rfl) hr hphase
    exact ⟨r', hr', hphase'⟩

theorem Over.of_stop (registry : Option Registry) {id : Nat} {f : FanOut → FanOut}
    {after : List Task} (hr : s.retrievals[id]? = some r) :
    ((({ s with registry } : Session).modifyFanOut id f).act id r.discovery.stop after).Over
      id := by
  have hget := (({ s with registry } : Session).modifyFanOut id f).act_getElem? id id
    r.discovery.stop after
  rw [modifyFanOut_getElem?, show ({ s with registry } : Session).retrievals[id]? = some r from hr,
    Option.map_some, Option.map_some, if_pos rfl] at hget
  exact ⟨_, hget, r.discovery.stop_phase⟩

def BringsSteady (s : Session) (k : Nat) (s' : Session) : Prop :=
  ∃ tasks, s'.agenda = tasks ++ s.agenda ∧ Steady k tasks

theorem BringsSteady.none (h : s'.agenda = s.agenda) : s.BringsSteady k s' :=
  ⟨[], h, True.intro⟩

theorem BringsSteady.of_forall (tasks : List Task) (hagenda : s'.agenda = tasks ++ s.agenda)
    (h : ∀ t ∈ tasks, t.Steady k) : s.BringsSteady k s' := ⟨tasks, hagenda, .of_forall h⟩

theorem BringsSteady.call (l : ListenerId) (e : Event) {after : Outcome → List Task}
    (hafter : ∀ outcome, ∀ t ∈ after outcome, t.Steady k) :
    s.BringsSteady k (s.call l e after) := by
  refine .of_forall _ rfl fun t ht => ?_
  rcases List.mem_append.1 ht with ht | ht
  · obtain ⟨step, -, hmem⟩ := List.mem_flatMap.1 ht
    simp only [List.mem_cons, List.not_mem_nil, or_false] at hmem
    rcases hmem with rfl | rfl <;> exact True.intro
  · exact hafter _ t ht

theorem BringsSteady.act {id : Nat} {result : Discovery × List Action} {after : List Task}
    (hactions : id = k → Paired result.2.tail) (hafter : ∀ t ∈ after, t.Steady k) :
    s.BringsSteady k (s.act id result after) :=
  ⟨.perform id result.2 false :: after, rfl, hactions, hafter⟩

/-- What a step brings on for a retrieval is steady, unless that has been stopped. -/
theorem Executed.bringsSteady (h : Executed s task s') (hbegun : task.Begun k)
    (hlawful : s.Lawful) : s'.Over k ∨ s.BringsSteady k s' := by
  have hperformed : ∀ {id : Nat} {rest : List Action} {anyRefused : Bool} {action : Action},
      task = .perform id (action :: rest) anyRefused → ∀ anyRefused,
        (Task.perform id rest anyRefused).Steady k := by
    rintro id rest anyRefused action rfl
    exact fun _ => hbegun
  cases h with
  | replies | records | expired => exact .inr (.none rfl)
  | commands a haside htasks =>
    exact .inr (.of_forall _ rfl fun t ht => (htasks t ht).idle.steady)
  | asks hc htasks => exact .inr (.of_forall _ rfl fun t ht => (htasks t ht).1.steady)
  | publishes htask ht hafter =>
    exact .inr (.of_forall _ rfl fun t ht => (hafter t ht).idle.steady)
  | publishAnswers htask ht hafter =>
    exact .inr (.of_forall _ rfl
      (List.forall_mem_cons.2 ⟨True.intro, fun t ht => (hafter t ht).idle.steady⟩))
  | expires => exact .inr (.of_forall _ rfl (List.forall_mem_singleton.2 True.intro))
  | timesOutNext => exact .inr (.of_forall [_, _] rfl (by simp [Task.Steady]))
  | callsBack | handsTo => exact .inr (.call _ _ (by simp))
  | cancels | expressRefused =>
    exact .inr (.of_forall _ rfl (List.forall_mem_singleton.2 (hperformed rfl _)))
  | expressWaits =>
    refine .inr (.of_forall [_, _] rfl (List.forall_mem_cons.2 ⟨True.intro, ?_⟩))
    exact List.forall_mem_singleton.2 (hperformed rfl _)
  | expressAnswered =>
    refine .inr (.of_forall [_, _, _] rfl (List.forall_mem_cons.2 ⟨True.intro, ?_⟩))
    refine List.forall_mem_cons.2 ⟨True.intro, ?_⟩
    exact List.forall_mem_singleton.2 (hperformed rfl _)
  | settleKeeps | settleCancels => exact .inr (.none rfl)
  | arrives c i hr =>
    refine .inr (.act (fun _ => Discovery.paired_tail_arrive s.now c i (hlawful.sound hr)) ?_)
    split <;> simp [Task.Steady]
  | timesOut i hr =>
    exact .inr (.act (fun _ => (Discovery.paired_timeout s.now i (hlawful.sound hr)).tail)
      (by simp))
  | handsOver =>
    refine .inr (.of_forall _ rfl fun t ht => ?_)
    rw [List.append_nil] at ht
    split at ht
    · rw [List.mem_singleton.1 ht]
      exact True.intro
    · cases ht
  | fansOut =>
    refine .inr (.call _ _ fun outcome => ?_)
    cases outcome <;> simp [Outcome.isFailure, Task.Steady]
  | skips => exact .inr (.of_forall _ rfl (List.forall_mem_singleton.2 True.intro))
  | countsFailure => exact .inr (.none rfl)
  | starts hc hr f =>
    refine .inr ?_
    exact BringsSteady.act (s := s.modifyFanOut _ f)
      (fun _ => (Discovery.accounted_start s.now (hlawful.sound hr)).paired.tail) (by simp)
  | @stops _ id r htends hr f hf _ registry =>
    by_cases hid : id = k
    · subst hid
      exact .inl (.of_stop registry hr)
    · refine .inr ?_
      exact BringsSteady.act (s := ({ s with registry } : Session).modifyFanOut id f)
        (fun hk => absurd hk hid) (by simp [Task.Steady])
  | @stopsNext id r ids hr =>
    by_cases hid : id = k
    · subst hid
      exact .inl (.of_stop s.registry hr)
    · refine .inr ?_
      exact BringsSteady.act (s := s.modifyFanOut id (·.markStopped))
        (fun hk => absurd hk hid) (by simp [Task.Steady])
  | refreshes ids now n hr =>
    exact .inr (.act (fun _ => (Discovery.accounted_refresh now (hlawful.sound hr)).paired.tail)
      (by simp [Task.Steady]))
  | refreshesOnce => exact .inr (.of_forall [_, _] rfl (by simp [Task.Steady]))
  | tends | dropsOwner => exact .inr (.none rfl)
  | @registers registry hregistry n l ticks floorTicks exclusions hrange floor =>
    have hsound : (Discovery.create n registry.config registry.trust exclusions floor).Sound :=
      Discovery.create_sound (hlawful.registry registry hregistry) hrange
    refine .inr ⟨[_, .rollback n l], rfl, fun _ => ?_, by simp [Task.Steady]⟩
    exact (Discovery.accounted_start s.now hsound).paired.tail
  | closes =>
    rw [closeRegistry_eq]
    exact .inr (.of_forall [_, _] rfl (by simp [Task.Steady]))
  | keeps n id hregistry hfind =>
    rw [keep, hfind]
    exact .inr (.none rfl)

theorem Executed.born (h : Executed s task s') (hnone : s.retrievals[k]? = none)
    (hr : s'.retrievals[k]? = some r) :
    ∃ (d : Discovery) (n : Name) (l : ListenerId), d.phase = .created ∧
      r.discovery = (d.start s.now).1 ∧ (s.Lawful → d.Sound) ∧
      s'.agenda = .perform k (d.start s.now).2 false :: .rollback n l :: s.agenda := by
  rcases h.movesAll_or_creates with ⟨f, hget, -⟩ | hcreates
  · rw [hget, hnone] at hr
    cases hr
  · obtain ⟨registry, n, l, exclusions, floor, hregistry, hrange, rfl⟩ := hcreates
    have hk : s.retrievals.length = k := by
      by_contra hk
      rw [registered_getElem?_of_ne hk, hnone] at hr
      cases hr
    subst hk
    have hget : (s.registered registry n l (.create n registry.config registry.trust exclusions
        floor)).retrievals[s.retrievals.length]? = some _ := getElem?_append_cons _ [] _
    obtain rfl := Option.some.inj (hget.symm.trans hr)
    exact ⟨_, n, l, rfl, rfl, fun hlawful =>
      Discovery.create_sound (hlawful.registry registry hregistry) hrange, rfl⟩

theorem cancels_sight {i : Interest} {actions : List Action} {anyRefused : Bool}
    (hagenda : s.agenda = .perform k (.cancel i :: actions) anyRefused :: rest)
    (hr : s.retrievals[k]? = some r) :
    ∃ r', s.step.retrievals[k]? = some r' ∧ s.step.sight k r' =
      ⟨r.discovery.cancelled, fun j => s.held k j - [i].count j,
        actions.map Action.duty ++ duties k rest⟩ := by
  have hstep : s.step = (((s.taken rest).cancelFor k i).modifyDiscovery k (·.cancelled)).push
      [.perform k actions anyRefused] := step_cons hagenda
  rw [hstep]
  exact @sight_cancels (s.taken rest) k r hr actions anyRefused i

/-- At this moment nothing that is outstanding has been forgotten, and it stays so. -/
structure Backed (s : Session) : Prop where
  lawful : s.Lawful
  steady : ∀ k, ¬ s.Over k → Steady k s.agenda
  covered : ∀ {k r}, s.retrievals[k]? = some r → (s.sight k r).Covered

namespace Backed

theorem step_steady (h : s.Backed) (k : Nat) (hover : ¬ s.step.Over k) :
    Steady k s.step.agenda := by
  have hsteady := h.steady k fun hover' => hover (hover'.step h.lawful)
  cases hagenda : s.agenda with
  | nil => rwa [step_of_nil hagenda]
  | cons task rest =>
    rw [hagenda] at hsteady
    obtain ⟨hbegun, hrest⟩ := hsteady
    have hlawful : (s.taken rest).Lawful := ⟨h.lawful.retrievals, h.lawful.registry⟩
    have hbrings : (s.taken rest).BringsSteady k s.step :=
      ((step_executed hagenda).bringsSteady hbegun hlawful).resolve_left hover
    obtain ⟨tasks, hagenda', htasks⟩ := hbrings
    rw [hagenda']
    exact htasks.append hrest

theorem covered_step (h : s.Backed) (hr : s.retrievals[k]? = some r) :
    ∃ r', s.step.retrievals[k]? = some r' ∧ (s.step.sight k r').Covered := by
  have hsound := h.lawful.sound hr
  have hcovered := h.covered hr
  by_cases hover : s.Over k
  · obtain ⟨r', hr', hphase⟩ := hover.step h.lawful
    have hsound' := h.lawful.step.sound hr'
    exact ⟨r', hr', .of_nothing (hsound'.outstanding_eq_nil (by simp [hphase]))⟩
  · have hsteady := h.steady k hover
    cases hagenda : s.agenda with
    | nil =>
      rw [step_of_nil hagenda]
      exact ⟨r, hr, hcovered⟩
    | cons task rest =>
      rw [hagenda] at hsteady
      obtain ⟨hbegun, hrest⟩ := hsteady
      rcases hbegun.steady_or with hsteady | ⟨i, actions, anyRefused, rfl, -⟩
      · have hoffset := offset_of_steady (List.forall_mem_cons.2 ⟨hsteady, hrest⟩)
        obtain ⟨r', hr', hmoves⟩ := (step_executed hagenda).movesTo (k := k) hr
        rw [sight, hagenda] at hcovered
        exact ⟨r', hr', hmoves.covered hcovered hsound hoffset⟩
      · -- Here the task may cancel more than it expresses, but this is known to be what comes next.
        rw [sight, hagenda, duties_cons, Task.duties, if_pos rfl] at hcovered
        obtain ⟨r', hr', hsight⟩ := cancels_sight hagenda hr
        exact ⟨r', hr', hsight ▸ hcovered.cancels⟩

theorem step (h : s.Backed) : s.step.Backed := by
  refine ⟨h.lawful.step, h.step_steady, fun {k r'} hr' => ?_⟩
  cases hr : s.retrievals[k]? with
  | some r =>
    obtain ⟨r'', hr'', hcovered⟩ := h.covered_step hr
    obtain rfl : r'' = r' := Option.some.inj (hr''.symm.trans hr')
    exact hcovered
  | none =>
    have hover : ¬ s.Over k := by
      rintro ⟨r, hsome, -⟩
      rw [hr] at hsome
      cases hsome
    have hsteady := h.steady k hover
    cases hagenda : s.agenda with
    | nil =>
      rw [step_of_nil hagenda, hr] at hr'
      cases hr'
    | cons task rest =>
      rw [hagenda] at hsteady
      obtain ⟨d, n, l, hphase, hd, hsound, hagenda'⟩ := (step_executed hagenda).born hr hr'
      have hlawful : (s.taken rest).Lawful := ⟨h.lawful.retrievals, h.lawful.registry⟩
      have hsound := hsound hlawful
      have hnothing : Sight.Covered ⟨d, s.step.held k, duties k rest⟩ :=
        .of_nothing (hsound.outstanding_eq_nil (by simp [hphase]))
      have hstarted := hnothing.accounted hsound
        (Discovery.accounted_start (s.taken rest).now hsound) (offset_of_steady hsteady.2)
      rw [sight, hd, hagenda', duties_cons, duties_cons, Task.duties, if_pos rfl]
      exact hstarted

theorem take_up (h : s.Backed) (hdone : s.agenda = []) (c : Command) :
    ({ s with agenda := [.command c], log := [] } : Session).Backed where
  lawful := ⟨h.lawful.retrievals, h.lawful.registry⟩
  steady _ _ := ⟨True.intro, by simp⟩
  covered {k r} hr := by
    have hcovered := h.covered hr
    rw [sight, hdone] at hcovered
    exact hcovered

end Backed

end Session

end NamedContent
