import NamedContent.Proofs.PassiveSessions

/-! Listeners that call nobody. When they are called they may register and remove listeners, mark
fan-outs as stopped, stop retrievals and close the registry, cancel what they have expressed
themselves, and ask whatever they like. All that is left to be done after that is to withdraw
Interests: nothing arrives anywhere, nobody else is called, and no failure is counted. -/

namespace NamedContent

namespace Command.CallsNobody

variable {c : Command} (h : c.CallsNobody)

include h

theorem byTransport : c.ByTransport := by
  cases c <;> first | exact True.intro | exact h.elim

theorem not_starts : ¬ c.Starts := by
  cases c <;> first | exact id | exact h.elim

end Command.CallsNobody

def Task.Tidies : Task → Prop
  | .answer _ => True
  | .perform _ actions _ => ∀ a ∈ actions, a.isExpress = false
  | .stopAll _ => True
  | _ => False

inductive Task.CallsNobody : Task → Prop where
  | tidies {task : Task} (h : task.Tidies) : CallsNobody task
  | command {c : Command} (h : c.CallsNobody) : CallsNobody (.command c)
  | record (label : String) : CallsNobody (.record label)
  | countFailure (id : Nat) : CallsNobody (.countFailure id)

def Event.delivery? : Event → Option (ListenerId × Content × Interest)
  | .deliver l c i => some (l, c, i)
  | _ => none

theorem Discovery.stop_tidies (d : Discovery) : ∀ a ∈ d.stop.2, a.isExpress = false := by
  rw [stop]
  split
  · simp
  · intro a ha
    simp only [eachSlot, List.flatMap_map, List.mem_flatMap, Slot.withdrawal] at ha
    obtain ⟨slot, -, ha⟩ := ha
    split at ha
    · rw [List.mem_singleton.1 ha]
      rfl
    · cases ha

namespace Session

variable {s s' : Session} {task : Task} {id : Nat}

/-- What has been handed to whom, in answer to which Interest, oldest first. -/
def deliveries (s : Session) : List (ListenerId × Content × Interest) :=
  s.log.reverse.filterMap Event.delivery?

def failures (s : Session) : List Nat := s.retrievals.map (·.fanOut.failures)

theorem failures_modifyRetrieval {f : Retrieval → Retrieval}
    (hf : ∀ r, (f r).fanOut.failures = r.fanOut.failures) :
    (s.modifyRetrieval id f).failures = s.failures :=
  map_modify_of_eq fun r _ => hf r

theorem failures_modifyFanOut {f : FanOut → FanOut} (hf : ∀ g, (f g).failures = g.failures) :
    (s.modifyFanOut id f).failures = s.failures :=
  failures_modifyRetrieval fun r => hf r.fanOut

theorem failures_closeRegistry (registry : Registry) :
    (s.closeRegistry registry).failures = s.failures := by
  refine List.ext_getElem? fun k => ?_
  rw [failures, failures, List.getElem?_map, List.getElem?_map, s.closeRegistry_getElem?,
    Option.map_map]
  refine congrArg (Option.map · s.retrievals[k]?) (funext fun r => ?_)
  dsimp only [Function.comp_apply]
  split <;> rfl

theorem failures_countFailure (s : Session) (id : Nat) :
    (s.modifyFanOut id (·.countFailure)).failures = s.failures.modify id (· + 1) := by
  refine List.ext_getElem? fun k => ?_
  rw [failures, List.getElem?_map, modifyFanOut_getElem?, List.getElem?_modify, failures,
    List.getElem?_map, Option.map_map, Option.map_eq_map, Option.map_map]
  refine congrArg (Option.map · s.retrievals[k]?) (funext fun r => ?_)
  dsimp only [Function.comp_apply]
  split <;> rfl

/-- Nobody has been called, and nobody is going to be. -/
structure Quietly (s s' : Session) : Prop where
  deliveries : s'.deliveries = s.deliveries
  failures : s'.failures = s.failures
  agenda : ∃ tasks, s'.agenda = tasks ++ s.agenda ∧ ∀ t ∈ tasks, t.Tidies

namespace Quietly

theorem of_same (hlog : s'.log = s.log) (hfailures : s'.failures = s.failures)
    (hagenda : s'.agenda = s.agenda) : Quietly s s' :=
  ⟨by rw [Session.deliveries, hlog, Session.deliveries], hfailures, [], hagenda, by simp⟩

theorem of_log (e : Event) (he : e.delivery? = none) (hlog : s'.log = e :: s.log)
    (hfailures : s'.failures = s.failures) (tasks : List Task)
    (hagenda : s'.agenda = tasks ++ s.agenda) (htasks : ∀ t ∈ tasks, t.Tidies) : Quietly s s' := by
  refine ⟨?_, hfailures, tasks, hagenda, htasks⟩
  rw [Session.deliveries, hlog, List.reverse_cons, List.filterMap_append,
    List.filterMap_cons_none he]
  exact List.append_nil _

theorem stops {f : FanOut → FanOut} (hf : ∀ g, (f g).failures = g.failures)
    (registry : Option Registry) (d : Discovery) {after : List Task}
    (hafter : ∀ t ∈ after, t.Tidies) :
    Quietly s ((({ s with registry } : Session).modifyFanOut id f).act id d.stop after) := by
  refine ⟨rfl, ?_, _, rfl, List.forall_mem_cons.2 ⟨d.stop_tidies, hafter⟩⟩
  have hchanged : (({ s with registry } : Session).modifyFanOut id f).failures = s.failures :=
    failures_modifyFanOut (s := { s with registry }) hf
  rw [← hchanged]
  exact failures_modifyRetrieval fun _ => rfl

end Quietly

/-- With listeners that call nobody, only the counting of a failure is not quiet. -/
theorem Executed.quietly (h : Executed s task s') (htask : task.CallsNobody)
    (hcounts : ∀ id, task ≠ .countFailure id) : Quietly s s' := by
  have hcommand : ∀ {c : Command}, task = .command c → c.CallsNobody := by
    rintro c rfl
    cases htask with
    | tidies htidies => exact htidies.elim
    | command hc => exact hc
  cases h with
  | replies | expired => exact .of_same rfl rfl rfl
  | records label => exact .of_log (.inner label s.answer) rfl rfl rfl [] rfl (by simp)
  | @commands c t tasks a haside htasks =>
    obtain rfl : tasks = [] := List.eq_nil_iff_forall_not_mem.2 fun t ht =>
      (htasks t ht).calls (hcommand rfl)
    exact .of_same rfl rfl rfl
  | @asks c tasks hc =>
    have hnobody : c.CallsNobody := hcommand rfl
    exact absurd hnobody.byTransport hc
  | expires | registers => exact (hcommand rfl).elim
  | @starts c id r hc =>
    have hnobody : c.CallsNobody := hcommand rfl
    exact absurd hc hnobody.not_starts
  | publishes hpublishes | publishAnswers hpublishes =>
    cases hpublishes with
    | command => exact (hcommand rfl).elim
    | next => cases htask with
      | tidies htidies => exact htidies.elim
  | callsBack l hback =>
    cases htask with
    | tidies htidies => cases task <;> first | exact hback.elim | exact htidies.elim
    | _ => exact hback.elim
  | cancels id i rest =>
    cases htask with
    | tidies htidies =>
      exact .of_log (.cancel i) rfl rfl (failures_modifyRetrieval fun _ => rfl) [_] rfl
        (List.forall_mem_singleton.2 (List.forall_mem_cons.1 htidies).2)
  | expressRefused | expressWaits | expressAnswered =>
    cases htask with
    | tidies htidies => cases (List.forall_mem_cons.1 htidies).1
  | countsFailure id => exact absurd rfl (hcounts id)
  | stops _ _ _ hfailures => exact .stops hfailures _ _ (by simp [Task.Tidies])
  | stopsNext ids => exact .stops FanOut.failures_markStopped s.registry _ (by simp [Task.Tidies])
  | tends a _ _ hfailures => exact .of_same rfl (failures_modifyFanOut hfailures) rfl
  | dropsOwner t id =>
    exact .of_same rfl (failures_modifyRetrieval (f := fun r => { r with owner := .gone })
      fun _ => rfl) rfl
  | closes =>
    refine ⟨?_, failures_closeRegistry _, ?_⟩ <;> rw [closeRegistry_eq]
    · rfl
    · exact ⟨[_, _], rfl, by simp [Task.Tidies]⟩
  | keeps n id _ hfind =>
    rw [keep, hfind]
    exact .of_same rfl rfl rfl
  | _ =>
    cases htask with
    | tidies htidies => exact htidies.elim

end Session

end NamedContent
