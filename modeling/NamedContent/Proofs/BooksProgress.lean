import NamedContent.Proofs.BooksSteps
import NamedContent.Proofs.ContentMatching
import NamedContent.Proofs.Progress

/-! Why a call returns whatever the transport refuses and whenever a listener stops the discovery.
A stop happens once; without it a call publishes what it was given once, each version held is
answered once and each stray once for a slot; and apart from all that, what is left on the agenda
becomes lighter, if whatever calls a listener outweighs the stops that the listener may leave. -/

namespace NamedContent

def Action.load (reach : Nat) : Action → Nat
  | .express _ => 6 * reach + 4
  | .cancel _ => 1

namespace Task

/-- How often the task, or what comes of it, turns to the transport or to all slots at once, other
than by a stop. -/
def turns : Task → Nat
  | .command (.stopDiscovery _) => 0
  | .command (.publishAll cs) => cs.length + 1
  | .command _ => 2
  | .publishAll cs _ => cs.length
  | .refreshAll ids _ _ => ids.length
  | _ => 0

/-- The weight, if a call leaves `2 * reach` tasks at most. A stop weighs three, as much as the
withdrawal and the answer that it leaves and one more; so a call weighs more than `6 * reach`, and
what brings on a call, an expression or a timeout weighs more than that in turn. -/
def load (reach : Nat) : Task → Nat
  | .command _ => 3
  | .perform _ actions _ => 1 + (actions.map (Action.load reach)).sum
  | .arrive _ _ _ => 6 * reach + 2
  | .timeout _ _ => 6 * reach + 6
  | .timeoutAll ps _ => 1 + (6 * reach + 7) * ps.length
  | .handOver _ _ _ => 6 * reach + 1
  | _ => 1

variable {reach : Nat} {task : Task}

theorem load_pos (reach : Nat) (task : Task) : 0 < task.load reach := by
  unfold load
  split <;> omega

theorem Stops.turns_eq (h : task.Stops) : task.turns = 0 := by
  unfold Stops at h
  split at h
  · subst h
    rfl
  · rfl
  · cases h

theorem Stops.load_le (h : task.Stops) : task.load reach ≤ 3 := by
  unfold Stops at h
  split at h
  · exact Nat.le_refl 3
  · exact Nat.le_of_ble_eq_true rfl
  · cases h

theorem Calls.turns_eq (h : task.Calls) : task.turns = 0 := by
  unfold Calls at h
  split at h <;> first | rfl | cases h

theorem Calls.lt_load (h : task.Calls) : 6 * reach < task.load reach := by
  unfold Calls at h
  split at h
  · exact Nat.lt_succ_self _
  · exact Nat.lt_add_of_pos_right (Nat.succ_pos 1)
  · exact Nat.lt_add_of_pos_right (Nat.succ_pos 5)
  · cases h

end Task

def turns (tasks : List Task) : Nat := (tasks.map Task.turns).sum

def load (reach : Nat) (tasks : List Task) : Nat := (tasks.map (Task.load reach)).sum

@[simp] theorem turns_cons (task : Task) (tasks : List Task) :
    turns (task :: tasks) = task.turns + turns tasks := by
  simp [turns]

@[simp] theorem load_cons (reach : Nat) (task : Task) (tasks : List Task) :
    load reach (task :: tasks) = task.load reach + load reach tasks := by
  simp [load]

theorem turns_append (tasks tasks' : List Task) :
    turns (tasks ++ tasks') = turns tasks + turns tasks' := by
  simp [turns]

theorem load_append (reach : Nat) (tasks tasks' : List Task) :
    load reach (tasks ++ tasks') = load reach tasks + load reach tasks' := by
  simp [load]

def backlog (reach : Nat) (d : Discovery) (t : Transport Handler) (agenda : List Task) :
    Nat × Nat × Nat × Nat × Nat :=
  (if d.phase = .stopped then 0 else 1, turns agenda, d.lacking t.store, d.missing t.store,
    load reach agenda)

def Shrinks : Nat × Nat × Nat × Nat × Nat → Nat × Nat × Nat × Nat × Nat → Prop :=
  Prod.Lex (· < ·) Precedes

theorem shrinks_wellFounded : WellFounded Shrinks :=
  WellFounded.prod_lex Nat.lt_wfRel.wf precedes_wellFounded

section Backlog

variable {reach : Nat} {d d' : Discovery} {t t' : Transport Handler} {agenda agenda' : List Task}

theorem backlog_of_turns (hphase : d'.phase = .stopped ↔ d.phase = .stopped)
    (h : turns agenda' < turns agenda) :
    Shrinks (backlog reach d' t' agenda') (backlog reach d t agenda) := by
  simp only [backlog, hphase]
  exact .right _ (.left _ _ h)

theorem backlog_of_lacking (hphase : d'.phase = d.phase) (hturns : turns agenda' = turns agenda)
    (h : d'.lacking t'.store < d.lacking t.store) :
    Shrinks (backlog reach d' t' agenda') (backlog reach d t agenda) := by
  simp only [backlog, hphase, hturns]
  exact .right _ (.right _ (.left _ _ h))

theorem backlog_of_missing (hphase : d'.phase = d.phase) (hturns : turns agenda' = turns agenda)
    (hlacking : d'.lacking t'.store = d.lacking t.store)
    (h : d'.missing t'.store < d.missing t.store) :
    Shrinks (backlog reach d' t' agenda') (backlog reach d t agenda) := by
  simp only [backlog, hphase, hturns, hlacking]
  exact .right _ (.right _ (.right _ (.left _ _ h)))

theorem backlog_of_load (hd : Discovery.Unmoved d d') (hstore : t'.store = t.store)
    (hturns : turns agenda' = turns agenda) (h : load reach agenda' < load reach agenda) :
    Shrinks (backlog reach d' t' agenda') (backlog reach d t agenda) := by
  simp only [backlog, hd.phase, hturns, hstore,
    hd.lacking_eq, hd.missing_eq]
  exact .right _ (.right _ (.right _ (.right _ h)))

theorem backlog_of_action {id : Nat} {action : Action} {actions : List Action}
    {anyRefused anyRefused' : Bool} {rest : List Task} (before : List Task)
    (hd : Discovery.Unmoved d d') (hstore : t'.store = t.store) (hturns : turns before = 0)
    (h : load reach before < action.load reach) :
    Shrinks (backlog reach d' t' (before ++ .perform id actions anyRefused' :: rest))
      (backlog reach d t (.perform id (action :: actions) anyRefused :: rest)) := by
  refine backlog_of_load hd hstore ?_ ?_
  · rw [turns_append, hturns, Nat.zero_add]
    rfl
  · rw [load_append, load_cons, load_cons]
    simp only [Task.load, List.map_cons, List.sum_cons]
    omega

theorem backlog_of_done {task : Task} {rest : List Task} (hd : Discovery.Unmoved d d')
    (hstore : t'.store = t.store) (hturns : task.turns = 0) :
    Shrinks (backlog reach d' t' rest) (backlog reach d t (task :: rest)) := by
  refine backlog_of_load hd hstore ?_ ?_
  · rw [turns_cons, hturns, Nat.zero_add]
  · have hpos := task.load_pos reach
    rw [load_cons]
    omega

end Backlog

namespace Discovery

variable {d : Discovery} {c : Content} {i : Interest}

theorem Sound.accepts_whatever_trust (h : d.Sound) (hi : i ∈ d.outstanding) {trust : Trust}
    (trust' : Trust) (hacc : i.accepts trust c = true) : i.accepts trust' c = true := by
  obtain ⟨p, hp⟩ := h.asks hi
  obtain ⟨f, -, rfl⟩ := Partition.interest_name hp
  rw [Interest.accepts_iff_meets] at hacc ⊢
  exact ⟨hacc.1, nofun⟩

end Discovery

namespace Books

open Discovery (Alike Unmoved)

variable {d : Discovery} {t t' : Transport Handler} {task : Task} {rest : List Task}
  {i : Interest} {c : Content} {now : Time} {reach : Nat}

theorem backlog_arrive (h : Books d t (.arrive (.retrieval 0) c i :: rest)) (hc : c ∈ t.store)
    (hacc : i.accepts .exactKey c = true) :
    Shrinks (backlog reach (d.arrive now c i).discovery t
      (.perform 0 (d.arrive now c i).actions false ::
        ((if (d.arrive now c i).delivers then [.handOver 0 c i] else []) ++ rest)))
      (backlog reach d t (.arrive (.retrieval 0) c i :: rest)) := by
  have hturns : turns (.perform 0 (d.arrive now c i).actions false ::
      ((if (d.arrive now c i).delivers then [.handOver 0 c i] else []) ++ rest)) =
      turns (.arrive (.retrieval 0) c i :: rest) := by
    cases (d.arrive now c i).delivers <;> simp [Task.turns]
  by_cases hphase : d.phase = .stopped
  · rw [Discovery.arrive_stopped hphase] at hturns ⊢
    refine backlog_of_load (.refl d) rfl hturns ?_
    simp [Task.load]
  · have hi : i ∈ d.outstanding := h.outstanding_of_owed hphase (by simp [Task.owed])
    have hacc' := h.sound.accepts_whatever_trust hi d.trust hacc
    obtain ⟨-, hsame⟩ := @Discovery.arrive_frame d now c i h.sound
    cases hx : c.name.component? d.basename.length with
    | none =>
      obtain ⟨pre, s, post, hslots, -, hask⟩ := Discovery.exists_awaiting hi
      have hrun := h.sound.isRunning_of_outstanding hi
      have hended : d.arrive now c i =
          { discovery := { d with slots := pre ++ s.clear :: post } } :=
        Discovery.arrive_ended_eq hrun hslots hask hacc' hx
      rw [hended] at hturns ⊢
      refine backlog_of_load ⟨⟨⟨rfl, rfl, rfl, rfl⟩, ?_⟩, rfl⟩ rfl hturns ?_
      · simp [hslots]
      · simp [Task.load]
    | some x =>
      rcases h.sound.arrive_lessens now hc hi hacc' hx with hlacking | ⟨hlacking, hmissing⟩
      · exact backlog_of_lacking hsame hturns hlacking
      · exact backlog_of_missing hsame hturns hlacking hmissing

theorem backlog_timeout (h : Books d t (.timeout (.retrieval 0) i :: rest)) :
    Shrinks (backlog reach (d.timeout now i).1 t (.perform 0 (d.timeout now i).2 false :: rest))
      (backlog reach d t (.timeout (.retrieval 0) i :: rest)) := by
  by_cases hphase : d.phase = .stopped
  · rw [Discovery.timeout_stopped hphase]
    refine backlog_of_load (.refl d) rfl (by simp [Task.turns]) ?_
    simp [Task.load]
  · have hi : i ∈ d.outstanding := h.outstanding_of_owed hphase (by simp [Task.owed])
    obtain ⟨halike, hactions⟩ := Discovery.timeout_asked now h.sound hi
    refine backlog_of_load halike.toUnmoved rfl (by simp [Task.turns]) ?_
    rw [hactions]
    simp [Task.load, Action.load]
    omega

theorem backlog_stop :
    Shrinks (backlog reach d.stop.1 t (.perform 0 d.stop.2 false :: .answer .done :: rest))
      (backlog reach d t (.command (.stopDiscovery .first) :: rest)) := by
  by_cases hphase : d.phase = .stopped
  · rw [Discovery.stop_stopped hphase]
    refine backlog_of_load (.refl d) rfl (by simp [Task.turns]) ?_
    simp only [load_cons, Task.load, List.map_nil, List.sum_nil]
    omega
  · simp only [backlog, Discovery.stop_phase, hphase, if_true, if_false]
    exact .left _ _ Nat.zero_lt_one

theorem backlog_calls (hcalls : task.Calls) {stops : List Task}
    (hstops : ∀ stop ∈ stops, stop.Stops) (hlength : stops.length ≤ 2 * reach) :
    Shrinks (backlog reach d t (stops ++ rest)) (backlog reach d t (task :: rest)) := by
  have hturns : turns (stops ++ rest) = turns rest ∧
      load reach (stops ++ rest) ≤ 3 * stops.length + load reach rest := by
    clear hlength
    induction stops with
    | nil => simp
    | cons stop stops ih =>
      obtain ⟨hsame, hle⟩ := ih fun stop' hstop => hstops stop' (List.mem_cons_of_mem _ hstop)
      have hstop := hstops stop List.mem_cons_self
      have hload : stop.load reach ≤ 3 := hstop.load_le
      rw [List.cons_append, turns_cons, load_cons, List.length_cons, hstop.turns_eq]
      omega
  have hlt : 6 * reach < task.load reach := hcalls.lt_load
  refine backlog_of_load (.refl d) rfl ?_ ?_
  · rw [hturns.1, turns_cons, hcalls.turns_eq, Nat.zero_add]
  · rw [load_cons]
    omega

section Works

variable {issued : List Interest} {e : Effect}

theorem backlog_nested (h : Books d t (task :: rest)) (hnested : task.Nested d t)
    (hdoes : Does issued d t task e) :
    Shrinks (backlog reach e.discovery e.transport (e.tasks ++ rest))
      (backlog reach d t (task :: rest)) := by
  have hself := Unmoved.refl d
  cases hdoes with
  | stop => exact backlog_stop
  | answer | performed => exact backlog_of_done hself rfl rfl
  | cancel i actions =>
    exact backlog_of_action [] (Alike.cancelled h.sound).toUnmoved (t.cancel_frame i _).1 rfl
      Nat.zero_lt_one
  | expressRefused actions anyRefused ht =>
    obtain ⟨hsame, hphase⟩ := Discovery.refused_frame d _
    exact backlog_of_action [] ⟨⟨hsame, Discovery.partitions_refused d⟩, hphase⟩
      (Transport.express_frame ht).1 rfl (Nat.succ_pos _)
  | expressWaits actions anyRefused ht =>
    refine backlog_of_action [.settle 0 _] hself (Transport.express_frame ht).1 rfl ?_
    simp [Task.load, Action.load, load]
  | expressAnswered actions anyRefused ht =>
    refine backlog_of_action [.arrive _ _ _, .settle 0 _] hself (Transport.express_frame ht).1
      rfl ?_
    simp [Task.load, Action.load, load]
  | settleKeeps => exact backlog_of_done (Alike.settled h.sound).toUnmoved rfl rfl
  | settleCancels =>
    exact backlog_of_done (Alike.settled h.sound).toUnmoved (t.cancel_frame _ _).1 rfl
  | arrive now c i => exact h.backlog_arrive hnested.1 hnested.2
  | timeout now i => exact h.backlog_timeout
  | handOver | handOverDropped => exact backlog_of_done hself rfl rfl
  | _ => cases hnested

theorem backlog_outermost (h : Books d t [task]) (houter : task.Outermost)
    (hdoes : Does issued d t task e) :
    Shrinks (backlog reach e.discovery e.transport (e.tasks ++ []))
      (backlog reach d t [task]) := by
  have hself := Unmoved.refl d
  cases hdoes with
  | stop => exact backlog_stop
  | answer | publishedAll | timedOutAll | refreshedAll => exact backlog_of_done hself rfl rfl
  | timeoutNext p ps =>
    refine backlog_of_load hself rfl (by simp [Task.turns]) ?_
    simp only [List.append_nil, load_cons, Task.load, List.length_cons, Nat.mul_succ]
    omega
  | start now =>
    refine backlog_of_turns ?_ (by simp [Task.turns])
    cases hphase : d.phase <;> simp [Discovery.start, hphase, Discovery.eachSlot]
  | refreshNext ids now =>
    refine backlog_of_turns ?_ (by simp [Task.turns])
    rw [(d.refresh_frame now).2]
  | refresh | publish | publishAnswers | publishMany | expire | publishNext
  | publishNextAnswers => exact backlog_of_turns .rfl (by simp [Task.turns])
  | _ => cases houter

theorem backlog_does (h : Books d t (task :: rest)) (hdoes : Does issued d t task e) :
    Shrinks (backlog reach e.discovery e.transport (e.tasks ++ rest))
      (backlog reach d t (task :: rest)) := by
  cases h.layered with
  | outermost houter => exact h.backlog_outermost houter hdoes
  | nested hnested _ => exact h.backlog_nested hnested hdoes

/-- Every step lessens what is left to do. -/
theorem backlog_works (h : Books d t (task :: rest)) (hworks : Works issued reach d t task e) :
    Shrinks (backlog reach e.discovery e.transport (e.tasks ++ rest))
      (backlog reach d t (task :: rest)) := by
  cases hworks with
  | does hdoes => exact h.backlog_does hdoes
  | refuseNext => exact backlog_of_turns .rfl (by simp [Task.turns])
  | record => exact backlog_of_done (.refl d) rfl rfl
  | calls hcalls hstops hlength => exact backlog_calls hcalls hstops hlength

end Works

end Books

end NamedContent
