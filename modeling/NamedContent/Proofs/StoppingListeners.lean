import Mathlib.Algebra.GroupWithZero.Nat
import Mathlib.Algebra.Order.BigOperators.Group.List
import Mathlib.Algebra.Order.Group.Nat
import NamedContent.Proofs.SoloSession

/-! Sessions about one discovery, whose listeners may stop it when they are called but do nothing
else. No task but a call looks at what listeners do, so such a session takes the same steps as one
whose owner is passive, until somebody is called: then the stops take their place on the agenda. -/

namespace NamedContent

def Task.Quiet : Task → Prop
  | .handOver _ _ _ => False
  | task => task.Local

def Task.Calls : Task → Prop
  | .handOver id _ _ => id = 0
  | .arrive h _ _ => h ≠ .retrieval 0
  | .timeout h _ => h ≠ .retrieval 0
  | _ => False

def Task.Stops : Task → Prop
  | .command c => c = .stopDiscovery .first
  | .record _ => True
  | _ => False

namespace Session

def withScripts (s : Session) (scripts : List (ListenerId × Script)) : Session :=
  { s with scripts }

section Unscripted

variable (s : Session) (scripts : List (ListenerId × Script))

theorem withRetrieval_withScripts {f g : Retrieval → Session}
    (h : ∀ r, f r = (g r).withScripts scripts) (id : Nat) :
    (s.withScripts scripts).withRetrieval id f = (s.withRetrieval id g).withScripts scripts := by
  have hretrievals : (s.withScripts scripts).retrievals = s.retrievals := rfl
  rw [withRetrieval, withRetrieval, hretrievals]
  cases s.retrievals[id]? with
  | none => rfl
  | some r => exact h r

theorem perform_withScripts (id : Nat) (anyRefused : Bool) (actions : List Action) :
    (s.withScripts scripts).perform id anyRefused actions =
      (s.perform id anyRefused actions).withScripts scripts := by
  cases actions with
  | nil => rfl
  | cons action rest =>
    cases action with
    | cancel i => rfl
    | express i =>
      have htransport : (s.withScripts scripts).transport = s.transport := rfl
      rw [perform, perform]
      simp only [record, htransport]
      split <;> rfl

theorem settle_withScripts (id : Nat) (i : Interest) :
    (s.withScripts scripts).settle id i = (s.settle id i).withScripts scripts := by
  refine withRetrieval_withScripts s scripts (fun r => ?_) id
  dsimp only
  split <;> rfl

theorem arrive_withScripts (c : Content) (i : Interest) (id : Nat) :
    (s.withScripts scripts).arrive c i (.retrieval id) =
      (s.arrive c i (.retrieval id)).withScripts scripts := by
  refine withRetrieval_withScripts s scripts ?_ id
  exact fun _ => rfl

theorem timeout_withScripts (i : Interest) (id : Nat) :
    (s.withScripts scripts).timeout i (.retrieval id) =
      (s.timeout i (.retrieval id)).withScripts scripts := by
  refine withRetrieval_withScripts s scripts ?_ id
  exact fun _ => rfl

theorem publish_withScripts (c : Content) (after : Bool → List Task) :
    (s.withScripts scripts).publish c after = (s.publish c after).withScripts scripts := by
  have htransport : (s.withScripts scripts).transport = s.transport := rfl
  rw [publish, publish, htransport]
  split <;> rfl

theorem publishNext_withScripts (answered : Nat) (cs : List Content) :
    (s.withScripts scripts).publishNext answered cs =
      (s.publishNext answered cs).withScripts scripts := by
  cases cs with
  | nil => rfl
  | cons c rest =>
    exact publish_withScripts s scripts c fun hit =>
      [.publishAll rest (if hit then answered + 1 else answered)]

theorem timeoutNext_withScripts (total : Nat) (ps : List (Pending Handler)) :
    (s.withScripts scripts).timeoutNext total ps =
      (s.timeoutNext total ps).withScripts scripts := by
  cases ps <;> rfl

theorem refreshNext_withScripts (now : Time) (reissued : Nat) (ids : List Nat) :
    (s.withScripts scripts).refreshNext now reissued ids =
      (s.refreshNext now reissued ids).withScripts scripts := by
  cases ids with
  | nil => rfl
  | cons id rest =>
    refine withRetrieval_withScripts s scripts ?_ id
    exact fun _ => rfl

theorem onTarget_withScripts {f g : Nat → Retrieval → Session}
    (h : ∀ id r, f id r = (g id r).withScripts scripts) (t : Target) :
    (s.withScripts scripts).onTarget t f = (s.onTarget t g).withScripts scripts := by
  have hretrieval : (s.withScripts scripts).retrievalOf t = s.retrievalOf t := rfl
  rw [onTarget, onTarget, hretrieval]
  split
  · rfl
  · exact h _ _

theorem onInterest_withScripts {f g : Interest → Session}
    (h : ∀ i, f i = (g i).withScripts scripts) (t : Target) (ref : InterestRef) :
    (s.withScripts scripts).onInterest t ref f = (s.onInterest t ref g).withScripts scripts := by
  have hinterest : (s.withScripts scripts).interestOf t ref = s.interestOf t ref := rfl
  rw [onInterest, onInterest, hinterest]
  split
  · rfl
  · exact h _

theorem run_withScripts {c : Command} (hc : c.Local) :
    (s.withScripts scripts).run c = (s.run c).withScripts scripts := by
  unfold Command.Local at hc
  split at hc
  · refine onTarget_withScripts s scripts ?_ _
    exact fun _ _ => rfl
  · refine onTarget_withScripts s scripts ?_ _
    exact fun _ _ => rfl
  · refine onTarget_withScripts s scripts ?_ _
    exact fun _ _ => rfl
  · refine onInterest_withScripts s scripts (fun i => ?_) _ _
    refine onTarget_withScripts s scripts ?_ _
    exact fun _ _ => rfl
  · refine onInterest_withScripts s scripts (fun i => ?_) _ _
    refine onTarget_withScripts s scripts ?_ _
    exact fun _ _ => rfl
  · rename_i c
    exact publish_withScripts s scripts c fun hit => [.answer (.flag hit)]
  · rfl
  · rfl
  · cases hc

theorem doTask_withScripts {task : Task} (htask : task.Quiet) :
    (s.withScripts scripts).doTask task = (s.doTask task).withScripts scripts := by
  unfold Task.Quiet at htask
  split at htask
  · cases htask
  · rename_i hnot
    unfold Task.Local at htask
    split at htask
    · exact run_withScripts s scripts htask
    · rfl
    · exact perform_withScripts s scripts _ _ _
    · exact settle_withScripts s scripts _ _
    · subst htask
      exact arrive_withScripts s scripts _ _ _
    · subst htask
      exact timeout_withScripts s scripts _ _
    · exact (hnot _ _ _ rfl).elim
    · exact publishNext_withScripts s scripts _ _
    · exact timeoutNext_withScripts s scripts _ _
    · exact refreshNext_withScripts s scripts _ _ _
    · cases htask

end Unscripted

def StopsOnly (s : Session) : Prop :=
  ∀ p ∈ s.scripts, ∀ steps ∈ p.2.calls, ∀ step ∈ steps, step.command = .stopDiscovery .first

/-- No call leaves more steps than all listeners have together. -/
def reach (s : Session) : Nat := (s.scripts.map fun p => (p.2.calls.map List.length).sum).sum

theorem stepsAt_eq_or_mem (s : Session) (l : ListenerId) (n : Nat) :
    (s.script l).stepsAt n = [] ∨ ∃ p ∈ s.scripts, (s.script l).stepsAt n ∈ p.2.calls := by
  rw [script]
  cases hfind : s.scripts.find? (·.1 == l) with
  | none => exact .inl rfl
  | some p =>
    simp only [Option.map_some, Option.getD_some, Script.stepsAt, List.getD_eq_getElem?_getD]
    cases hcall : p.2.calls[n]? with
    | none => exact .inl rfl
    | some steps => exact .inr ⟨p, List.mem_of_find?_eq_some hfind, List.mem_of_getElem? hcall⟩

theorem exists_calls_of_mem_stepsAt {s : Session} {l : ListenerId} {n : Nat} {step : Step}
    (hstep : step ∈ (s.script l).stepsAt n) :
    ∃ p ∈ s.scripts, ∃ steps ∈ p.2.calls, step ∈ steps := by
  rcases s.stepsAt_eq_or_mem l n with hnil | ⟨p, hp, hmem⟩
  · rw [hnil] at hstep
    cases hstep
  · exact ⟨p, hp, _, hmem, hstep⟩

theorem StopsOnly.stepsAt {s : Session} (h : s.StopsOnly) {l : ListenerId} {n : Nat} {step : Step}
    (hstep : step ∈ (s.script l).stepsAt n) : step.command = .stopDiscovery .first := by
  obtain ⟨p, hp, steps, hsteps, hmem⟩ := exists_calls_of_mem_stepsAt hstep
  exact h p hp steps hsteps step hmem

theorem length_stepsAt_le (s : Session) (l : ListenerId) (n : Nat) :
    ((s.script l).stepsAt n).length ≤ s.reach := by
  rcases s.stepsAt_eq_or_mem l n with hnil | ⟨p, hp, hmem⟩
  · rw [hnil]
    exact Nat.zero_le _
  · exact Nat.le_trans (List.le_sum_of_mem (List.mem_map_of_mem hmem))
      (List.le_sum_of_mem (List.mem_map_of_mem (f := fun p : ListenerId × Script =>
        (p.2.calls.map List.length).sum) hp))

end Session

/-- What a step of a session with stopping listeners does; a call leaves `2 * reach` tasks at
most. -/
inductive Works (issued : List Interest) (reach : Nat) (d : Discovery) (t : Transport Handler) :
    Task → Effect → Prop where
  | does {task : Task} {e : Effect} (h : Does issued d t task e) (hquiet : task.Quiet) :
      Works issued reach d t task e
  | refuseNext (n : Nat) : Works issued reach d t (.command (.refuseNext n))
      { discovery := d, transport := t.refuseNext n }
  | record (label : String) : Works issued reach d t (.record label)
      { discovery := d, transport := t }
  | calls {task : Task} (hcalls : task.Calls) {stops : List Task}
      (hstops : ∀ stop ∈ stops, stop.Stops) (hlength : stops.length ≤ 2 * reach) :
      Works issued reach d t task { discovery := d, transport := t, tasks := stops }

def Task.Hosted (task : Task) : Prop :=
  task.Quiet ∨ (∃ n, task = .command (.refuseNext n)) ∨ (∃ label, task = .record label) ∨ task.Calls

namespace Session

/-- The discovery of a listener is the only one, and listeners do nothing but stop it. -/
structure Hosts (o : ListenerId) (s : Session) (d : Discovery) : Prop where
  retrievals : ∃ f, s.retrievals = [{ discovery := d, owner := .listener o, fanOut := f }]
  stops : s.StopsOnly

structure Comes (o : ListenerId) (s s' : Session) (rest : List Task) (e : Effect) : Prop where
  hosts : Hosts o s' e.discovery
  scripts : s'.scripts = s.scripts
  transport : s'.transport = e.transport
  agenda : s'.agenda = e.tasks ++ rest

section Hosts

variable {o : ListenerId} {s : Session} {d : Discovery} {task : Task}

theorem Hosts.solo (h : Hosts o s d) : Solo o (s.withScripts []) d := ⟨h.retrievals, rfl⟩

theorem Hosts.withRetrieval_eq (h : Hosts o s d) : ∃ r : Retrieval, r.discovery = d ∧
    r.owner = .listener o ∧ ∀ f, s.withRetrieval 0 f = f r :=
  withRetrieval_only h.retrievals

theorem Hosts.comes_quiet (h : Hosts o s d) (htask : task.Quiet) :
    ∃ e, Does s.issued d s.transport task e ∧ Comes o s (s.doTask task) s.agenda e := by
  have hlocal : task.Local := by
    unfold Task.Quiet at htask
    split at htask
    · cases htask
    · exact htask
  obtain ⟨e, hdoes, hleads⟩ := h.solo.does_doTask hlocal
  have hself : s.doTask task = (s.doTask task).withScripts s.scripts :=
    s.doTask_withScripts s.scripts htask
  have hscripts : (s.doTask task).scripts = s.scripts := by
    rw [hself]
    rfl
  rw [s.doTask_withScripts [] htask] at hleads
  refine ⟨e, hdoes, ⟨hleads.solo.retrievals, ?_⟩, hscripts, hleads.transport, hleads.agenda⟩
  rw [StopsOnly, hscripts]
  exact h.stops

theorem Hosts.comes_push (h : Hosts o s d) (tasks : List Task) :
    Comes o s (s.push tasks) s.agenda { discovery := d, transport := s.transport, tasks } :=
  ⟨⟨h.retrievals, h.stops⟩, rfl, rfl, rfl⟩

theorem length_flatMap_pair {α β : Type} (f g : α → β) (xs : List α) :
    (xs.flatMap fun x => [f x, g x]).length = 2 * xs.length := by
  induction xs with
  | nil => rfl
  | cons x xs ih =>
    rw [List.flatMap_cons, List.length_append, ih, List.length_cons]
    exact Nat.add_comm _ _

theorem Hosts.comes_call (h : Hosts o s d) (l : ListenerId) (event : Event) :
    ∃ stops, (∀ stop ∈ stops, stop.Stops) ∧ stops.length ≤ 2 * s.reach ∧
      Comes o s (s.call l event fun _ => []) s.agenda
        { discovery := d, transport := s.transport, tasks := stops } := by
  refine ⟨((s.script l).stepsAt (s.callCount l)).flatMap fun step =>
    [.command step.command, .record step.label], ?_, ?_, ⟨h.retrievals, h.stops⟩, rfl, rfl, ?_⟩
  · intro stop hstop
    obtain ⟨step, hstep, hmem⟩ := List.mem_flatMap.1 hstop
    simp only [List.mem_cons, List.not_mem_nil, or_false] at hmem
    rcases hmem with rfl | rfl
    · exact h.stops.stepsAt hstep
    · exact True.intro
  · rw [length_flatMap_pair]
    exact Nat.mul_le_mul_left 2 (s.length_stepsAt_le l _)
  · simp only [call, push, record, countCall, List.append_nil]

theorem Hosts.comes_calls (h : Hosts o s d) (htask : task.Calls) :
    ∃ stops, (∀ stop ∈ stops, stop.Stops) ∧ stops.length ≤ 2 * s.reach ∧
      Comes o s (s.doTask task) s.agenda
        { discovery := d, transport := s.transport, tasks := stops } := by
  have hnobody : ∃ stops : List Task, (∀ stop ∈ stops, stop.Stops) ∧ stops.length ≤ 2 * s.reach ∧
      Comes o s s s.agenda { discovery := d, transport := s.transport, tasks := stops } :=
    ⟨[], fun _ hstop => (List.not_mem_nil hstop).elim, Nat.zero_le _, h.comes_push []⟩
  have hother : ∀ id, id ≠ 0 → ∀ f, s.withRetrieval id f = s := by
    intro id hid f
    obtain ⟨fanOut, hr⟩ := h.retrievals
    rw [withRetrieval, hr, List.getElem?_eq_none (Nat.one_le_iff_ne_zero.2 hid)]
  unfold Task.Calls at htask
  split at htask
  · subst htask
    obtain ⟨r, hd, howner, hr⟩ := h.withRetrieval_eq
    rw [doTask, handOver, hr, howner]
    split
    · exact h.comes_call o _
    · exact hnobody
  · rename_i handler c i
    cases handler with
    | listener l => exact h.comes_call l _
    | retrieval id =>
      rw [doTask, arrive, hother id fun hid => htask (congrArg _ hid)]
      exact hnobody
  · rename_i handler i
    cases handler with
    | listener l => exact h.comes_call l _
    | retrieval id =>
      rw [doTask, timeout, hother id fun hid => htask (congrArg _ hid)]
      exact hnobody
  · cases htask

theorem Hosts.step_works (h : Hosts o s d) {rest : List Task} (hagenda : s.agenda = task :: rest)
    (htask : task.Hosted) :
    ∃ e, Works s.issued s.reach d s.transport task e ∧ Comes o s s.step rest e := by
  have htaken : Hosts o { s with agenda := rest, steps := s.steps + 1 } d :=
    ⟨h.retrievals, h.stops⟩
  rw [step, hagenda]
  rcases htask with hquiet | ⟨n, rfl⟩ | ⟨label, rfl⟩ | hcalls
  · obtain ⟨e, hdoes, hcomes⟩ := htaken.comes_quiet hquiet
    exact ⟨e, .does hdoes hquiet, hcomes.hosts, hcomes.scripts, hcomes.transport, hcomes.agenda⟩
  · exact ⟨_, .refuseNext n, ⟨h.retrievals, h.stops⟩, rfl, rfl, rfl⟩
  · exact ⟨_, .record label, ⟨h.retrievals, h.stops⟩, rfl, rfl, rfl⟩
  · obtain ⟨stops, hstops, hlength, hcomes⟩ := htaken.comes_calls hcalls
    exact ⟨_, .calls hcalls hstops hlength, hcomes.hosts, hcomes.scripts, hcomes.transport,
      hcomes.agenda⟩

end Hosts

end Session

end NamedContent
