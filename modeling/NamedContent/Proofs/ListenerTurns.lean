import NamedContent.Proofs.QuietListeners

/-! The turns of a fan-out. It goes by the list of those registered when it begins; a listener is
called at its turn if it is still registered and the fan-out runs. If those who are called call
nobody, all that a turn brings on comes to an end, and what is handed over meanwhile, and every
failure that is counted, is of a turn. -/

namespace NamedContent.Session

variable {s start : Session} {id n : Nat} {task : Task} {tasks rest : List Task}
  {l : ListenerId} {later : List ListenerId} {c : Content} {i : Interest}

section Endings

theorem iterate_scripts (s : Session) (n : Nat) : (step^[n] s).scripts = s.scripts := by
  induction n with
  | zero => rfl
  | succ n ih => rw [Function.iterate_succ_apply', step_scripts, ih]

theorem Scripted.iterate {P : Command → Prop} (h : s.Scripted P) (n : Nat) :
    (step^[n] s).Scripted P := by
  rw [Scripted, iterate_scripts]
  exact h

/-- If listeners call nobody, the task comes to an end with all that it brings on, whatever is to
be done after it. -/
def Ends (task : Task) : Prop :=
  ∀ (s : Session) (rest : List Task), s.Scripted Command.CallsNobody → s.agenda = task :: rest →
    ∃ n, (step^[n] s).agenda = rest

theorem exists_ended (htasks : ∀ t ∈ tasks, Ends t) (hscripts : s.Scripted Command.CallsNobody)
    (hagenda : s.agenda = tasks ++ rest) : ∃ n, (step^[n] s).agenda = rest := by
  induction tasks generalizing s with
  | nil => exact ⟨0, hagenda⟩
  | cons task tasks ih =>
    obtain ⟨htask, htasks⟩ := List.forall_mem_cons.1 htasks
    obtain ⟨n, hn⟩ := htask s (tasks ++ rest) hscripts hagenda
    obtain ⟨m, hm⟩ := ih htasks (hscripts.iterate n) hn
    exact ⟨m + n, by rw [Function.iterate_add_apply, hm]⟩

theorem Ends.of_doTask (h : ∀ s : Session, s.Scripted Command.CallsNobody →
    ∃ tasks, (s.doTask task).agenda = tasks ++ s.agenda ∧ ∀ t ∈ tasks, Ends t) : Ends task := by
  intro s rest hscripts hagenda
  obtain ⟨tasks, htasks, hends⟩ := h (s.taken rest) hscripts
  have hstep : s.step.agenda = tasks ++ rest := by rw [step_cons hagenda, htasks]; rfl
  have hscripts' : s.step.Scripted Command.CallsNobody := hscripts.iterate 1
  obtain ⟨n, hn⟩ := exists_ended hends hscripts' hstep
  exact ⟨n + 1, hn⟩

theorem Ends.of_done (h : ∀ s : Session, (s.doTask task).agenda = s.agenda) : Ends task :=
  .of_doTask fun s _ => ⟨[], h s, by simp⟩

theorem ends_perform {actions : List Action} (h : ∀ a ∈ actions, a.isExpress = false)
    (anyRefused : Bool) : Ends (.perform id actions anyRefused) := by
  induction actions with
  | nil => exact .of_done fun _ => rfl
  | cons a actions ih =>
    obtain ⟨ha, hactions⟩ := List.forall_mem_cons.1 h
    cases a with
    | express i => cases ha
    | cancel i => exact .of_doTask fun s _ => ⟨[_], rfl, List.forall_mem_singleton.2 (ih hactions)⟩

theorem ends_stopAll (ids : List Nat) : Ends (.stopAll ids) := by
  induction ids with
  | nil => exact .of_done fun _ => rfl
  | cons id ids ih =>
    refine .of_doTask fun s _ => ?_
    rw [doTask, stopNext, stopRetrieval, withRetrieval]
    split
    · rename_i r _
      refine ⟨[_, _], rfl, List.forall_mem_cons.2 ⟨?_, List.forall_mem_singleton.2 ih⟩⟩
      exact ends_perform r.discovery.stop_tidies false
    · exact ⟨[], rfl, by simp⟩

theorem ends_of_tidies (h : task.Tidies) : Ends task := by
  cases task with
  | answer a => exact .of_done fun _ => rfl
  | perform id actions anyRefused => exact ends_perform h anyRefused
  | stopAll ids => exact ends_stopAll ids
  | _ => exact h.elim

theorem ends_of_callsNobody (h : task.CallsNobody) : Ends task := by
  cases h with
  | tidies h => exact ends_of_tidies h
  | command h =>
    refine .of_doTask fun s _ => ?_
    have hquietly := (executed_run s _).quietly (.command h) nofun
    obtain ⟨tasks, hagenda, htidies⟩ := hquietly.agenda
    exact ⟨tasks, hagenda, fun t ht => ends_of_tidies (htidies t ht)⟩
  | record label => exact .of_done fun _ => rfl
  | countFailure id => exact .of_done fun _ => rfl

end Endings

section Calls

def fansOut (s : Session) (id : Nat) : Bool := s.retrievals[id]?.any (·.fanOut.isRunning)

def reaches (s : Session) (id : Nat) (l : ListenerId) : Bool :=
  s.retrievals[id]?.any fun r => r.fanOut.isRunning && r.fanOut.isRegistered l

def fails (s : Session) (l : ListenerId) : Bool :=
  ((s.script l).outcomeAt (s.callCount l)).isFailure

def callTasks (s : Session) (id : Nat) (l : ListenerId) : List Task :=
  (((s.script l).stepsAt (s.callCount l)).flatMap fun step =>
    [.command step.command, .record step.label]) ++
  if s.fails l then [.countFailure id] else []

theorem callTasks_callNobody (hscripts : s.Scripted Command.CallsNobody) (id : Nat)
    (l : ListenerId) : ∀ t ∈ s.callTasks id l, t.CallsNobody := by
  intro t ht
  rcases List.mem_append.1 ht with ht | ht
  · rcases hscripts.of_mem_steps ht with ⟨label, rfl⟩ | ⟨c, rfl, hc⟩
    · exact .record label
    · exact .command hc
  · split at ht
    · rw [List.mem_singleton.1 ht]
      exact .countFailure id
    · cases ht

/-- A turn: the fan-out ends, or passes the listener over, or calls it. -/
inductive Takes (s : Session) (id : Nat) (l : ListenerId) (later : List ListenerId) (c : Content)
    (i : Interest) (s' : Session) : Prop where
  | ends (hreaches : s.reaches id l = false) (hstopped : s.fansOut id = false) (hs' : s' = s)
  | passes (hreaches : s.reaches id l = false) (hs' : s' = s.push [.fanOut id later c i])
  | calls (hreaches : s.reaches id l = true)
      (hs' : s' = ((s.record (.deliver l c i)).countCall l).push
        (s.callTasks id l ++ [.fanOut id later c i]))

theorem takes_fanOut (s : Session) (id : Nat) (l : ListenerId) (later : List ListenerId)
    (c : Content) (i : Interest) : s.Takes id l later c i (s.fanOut id c i (l :: later)) := by
  rw [fanOut, withRetrieval]
  split
  · rename_i r hr
    split
    · rename_i hrun
      rw [Bool.not_eq_true'] at hrun
      exact .ends (by simp [reaches, hr, hrun]) (by simp [fansOut, hr, hrun]) rfl
    · rename_i hrun
      rw [Bool.not_eq_true', Bool.not_eq_false] at hrun
      split
      · rename_i hgone
        rw [Bool.not_eq_true'] at hgone
        exact .passes (by simp [reaches, hr, hgone]) rfl
      · rename_i hthere
        rw [Bool.not_eq_true', Bool.not_eq_false] at hthere
        refine .calls (by simp [reaches, hr, hrun, hthere]) ?_
        rw [call, callTasks, fails, List.append_assoc]
  · rename_i hnone
    exact .ends (by simp [reaches, hnone]) (by simp [fansOut, hnone]) rfl

theorem ends_fanOut (id : Nat) (c : Content) (i : Interest) (ls : List ListenerId) :
    Ends (.fanOut id ls c i) := by
  induction ls with
  | nil => exact .of_done fun _ => rfl
  | cons l later ih =>
    refine .of_doTask fun s hscripts => ?_
    rcases s.takes_fanOut id l later c i with ⟨-, -, hs'⟩ | ⟨-, hs'⟩ | ⟨-, hs'⟩ <;>
      rw [doTask, hs']
    · exact ⟨[], rfl, by simp⟩
    · exact ⟨[_], rfl, List.forall_mem_singleton.2 ih⟩
    · refine ⟨_, rfl, fun t ht => ?_⟩
      rcases List.mem_append.1 ht with ht | ht
      · exact ends_of_callsNobody (callTasks_callNobody hscripts id l t ht)
      · exact List.mem_singleton.1 ht ▸ ih

end Calls

/-- The moment at which a fan-out comes to a listener. -/
structure Turn where
  listener : ListenerId
  session : Session

def Turn.isCall (id : Nat) (t : Turn) : Bool := t.session.reaches id t.listener

def Turn.isFailure (t : Turn) : Bool := t.session.fails t.listener

/-- The turn that is next, in a fan-out of the retrieval with so many tasks after it. -/
def turn? (s : Session) (id depth : Nat) : Option Turn :=
  match s.agenda with
  | .fanOut id' (l :: _) _ _ :: rest =>
    if id' = id ∧ rest.length = depth then some ⟨l, s⟩ else none
  | _ => none

def turns (start : Session) (id depth n : Nat) : List Turn :=
  (List.range n).filterMap fun k => (step^[k] start).turn? id depth

def callTurns (start : Session) (id depth n : Nat) : List Turn :=
  (start.turns id depth n).filter (Turn.isCall id)

/-- What is left to be done is this for the first time after `n` steps. -/
def Returns (start : Session) (rest : List Task) (n : Nat) : Prop :=
  (step^[n] start).agenda = rest ∧ ∀ m < n, (step^[m] start).agenda ≠ rest

theorem Returns.unique {m : Nat} (hn : start.Returns rest n) (hm : start.Returns rest m) :
    n = m := by
  rcases Nat.lt_trichotomy n m with hlt | heq | hlt
  · exact absurd hn.1 (hm.2 n hlt)
  · exact heq
  · exact absurd hm.1 (hn.2 m hlt)

section Turns

theorem turns_succ (start : Session) (id depth n : Nat) :
    start.turns id depth (n + 1) =
      start.turns id depth n ++ ((step^[n] start).turn? id depth).toList := by
  rw [turns, turns, List.range_succ, List.filterMap_append]
  cases hturn : (step^[n] start).turn? id depth <;> simp [hturn]

theorem turn?_of_lt {depth : Nat} (hagenda : s.agenda = task :: rest) (h : depth < rest.length) :
    s.turn? id depth = none := by
  rw [turn?, hagenda]
  split
  · rename_i heq
    obtain ⟨-, rfl⟩ := List.cons.inj heq
    exact if_neg fun hdepth => by omega
  · rfl

theorem turns_of_fanOut
    (hagenda : (step^[n] start).agenda = .fanOut id (l :: later) c i :: rest) :
    start.turns id rest.length (n + 1) =
      start.turns id rest.length n ++ [⟨l, step^[n] start⟩] := by
  have hturn : (step^[n] start).turn? id rest.length = some ⟨l, step^[n] start⟩ := by
    rw [turn?, hagenda]
    exact if_pos ⟨rfl, rfl⟩
  rw [turns_succ, hturn, Option.toList_some]

theorem callTurns_of_fanOut
    (hagenda : (step^[n] start).agenda = .fanOut id (l :: later) c i :: rest) :
    start.callTurns id rest.length (n + 1) = start.callTurns id rest.length n ++
      if (step^[n] start).reaches id l then [⟨l, step^[n] start⟩] else [] := by
  rw [callTurns, turns_of_fanOut hagenda, List.filter_append]
  cases hreaches : (step^[n] start).reaches id l <;> simp [callTurns, Turn.isCall, hreaches]

theorem turn?_of_fanOut_nil {depth : Nat} (hagenda : s.agenda = .fanOut id [] c i :: rest) :
    s.turn? id depth = none := by
  rw [turn?, hagenda]

end Turns

def counts (id : Nat) : Task → Bool
  | .countFailure id' => id' == id
  | _ => false

theorem counts_of_tidies (h : task.Tidies) : counts id task = false := by
  cases task <;> first | rfl | exact h.elim

/-- If listeners call nobody: what has been handed over since the start was handed to those called,
and so many of their calls as have failed are counted, or are yet to be. -/
structure Accounts (start : Session) (id : Nat) (c : Content) (i : Interest) (called : List Turn)
    (s : Session) (tasks : List Task) : Prop where
  callNobody : ∀ t ∈ tasks, t.CallsNobody
  deliveries : s.deliveries = start.deliveries ++ called.map fun t => (t.listener, c, i)
  failures : ∃ before now, start.failures[id]? = some before ∧ s.failures[id]? = some now ∧
    now + tasks.countP (counts id) = before + called.countP Turn.isFailure

namespace Accounts

variable {called : List Turn}

theorem step_on (h : Accounts start id c i called s (task :: tasks))
    (hagenda : s.agenda = task :: (tasks ++ rest)) :
    ∃ new, s.step.agenda = new ++ (tasks ++ rest) ∧
      Accounts start id c i called s.step (new ++ tasks) := by
  obtain ⟨htask, htasks⟩ := List.forall_mem_cons.1 h.callNobody
  obtain ⟨before, now, hbefore, hnow, hcount⟩ := h.failures
  have hquietly : counts id task = false → (∀ id', task ≠ .countFailure id') →
      ∃ new, s.step.agenda = new ++ (tasks ++ rest) ∧
        Accounts start id c i called s.step (new ++ tasks) := by
    intro hnot hcounts
    have hq := (step_executed hagenda).quietly htask hcounts
    obtain ⟨new, hnew, htidies⟩ := hq.agenda
    refine ⟨new, hnew, fun t ht => ?_, hq.deliveries.trans h.deliveries,
      before, now, hbefore, ?_, ?_⟩
    · exact (List.mem_append.1 ht).elim (fun ht => .tidies (htidies t ht)) (htasks t)
    · rw [hq.failures]
      exact hnow
    · have hnone : new.countP (counts id) = 0 :=
        List.countP_eq_zero.2 fun t ht => by simp [counts_of_tidies (htidies t ht)]
      rw [List.countP_cons_of_neg (by simp [hnot])] at hcount
      rw [List.countP_append, hnone, Nat.zero_add, hcount]
  cases htask with
  | tidies htidies =>
    refine hquietly (counts_of_tidies htidies) ?_
    rintro id' rfl
    exact htidies.elim
  | command hc => exact hquietly rfl nofun
  | record label => exact hquietly rfl nofun
  | countFailure id' =>
    have hfailures : s.step.failures = s.failures.modify id' (· + 1) := by
      rw [step_cons hagenda]
      exact failures_countFailure _ id'
    refine ⟨[], by rw [step_cons hagenda]; rfl, htasks, ?_, before, _, hbefore,
      by rw [hfailures, List.getElem?_modify, hnow]; rfl, ?_⟩
    · rw [step_cons hagenda]
      exact h.deliveries
    · rw [List.nil_append, ← hcount]
      show (if id' = id then now + 1 else now) + _ = _
      by_cases hid : id' = id
      · rw [if_pos hid, List.countP_cons_of_pos (by simp [counts, hid])]
        omega
      · rw [if_neg hid, List.countP_cons_of_neg (by simp [counts, hid])]

theorem call (h : Accounts start id c i called s []) (hscripts : s.Scripted Command.CallsNobody)
    (l : ListenerId) {s' : Session} (hlog : s'.log = .deliver l c i :: s.log)
    (hretrievals : s'.retrievals = s.retrievals) :
    Accounts start id c i (called ++ [⟨l, s⟩]) s' (s.callTasks id l) := by
  obtain ⟨before, now, hbefore, hnow, hcount⟩ := h.failures
  refine ⟨callTasks_callNobody hscripts id l, ?_, before, now, hbefore, ?_, ?_⟩
  · rw [Session.deliveries, hlog, List.reverse_cons, List.filterMap_append, List.map_append,
      ← List.append_assoc, ← h.deliveries]
    rfl
  · rw [Session.failures, hretrievals]
    exact hnow
  · have hsteps : (((s.script l).stepsAt (s.callCount l)).flatMap fun step =>
        [Task.command step.command, .record step.label]).countP (counts id) = 0 := by
      refine List.countP_eq_zero.2 fun t ht => ?_
      rcases hscripts.of_mem_steps ht with ⟨label, rfl⟩ | ⟨c, rfl, -⟩ <;> simp [counts]
    have hown : (if s.fails l then [Task.countFailure id] else []).countP (counts id) =
        [(⟨l, s⟩ : Turn)].countP Turn.isFailure := by
      cases hfails : s.fails l <;> simp [Turn.isFailure, hfails, counts]
    rw [List.countP_nil, Nat.add_zero] at hcount
    rw [callTasks, List.countP_append, hsteps, Nat.zero_add, hown, List.countP_append, hcount,
      Nat.add_assoc]

theorem pass (h : Accounts start id c i called s []) {s' : Session} (hlog : s'.log = s.log)
    (hretrievals : s'.retrievals = s.retrievals) : Accounts start id c i called s' [] := by
  refine ⟨h.callNobody, ?_, ?_⟩
  · rw [Session.deliveries, hlog]
    exact h.deliveries
  · have hfailures : s'.failures = s.failures := by rw [Session.failures, hretrievals]; rfl
    rw [hfailures]
    exact h.failures

end Accounts

end NamedContent.Session
