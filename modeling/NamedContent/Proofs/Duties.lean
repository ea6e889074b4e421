import NamedContent.Proofs.Books
import NamedContent.Proofs.Fates

/-! What the tasks of an agenda are about. A task may be about one retrieval: what it still has to
cancel, express, settle or bring back there are duties of that retrieval. It may call the transport,
or have an expiry under way that is yet to answer how many Interests it has taken away. -/

namespace NamedContent

open Transport (Op)

/-- What is yet to be done for a retrieval at the transport, or is on its way back from there. -/
inductive Duty where
  | cancel (i : Interest)
  | express (i : Interest)
  | settle (i : Interest)
  /-- Content for `i` arrives, or `i` has timed out. -/
  | answer (i : Interest)
  deriving DecidableEq

def Action.duty : Action → Duty
  | .express i => .express i
  | .cancel i => .cancel i

def Task.duties (k : Nat) : Task → List Duty
  | .perform id actions _ => if id = k then actions.map Action.duty else []
  | .settle id i => if id = k then [.settle i] else []
  | .arrive h _ i => if h = .retrieval k then [.answer i] else []
  | .timeout h i => if h = .retrieval k then [.answer i] else []
  | .timeoutAll ps _ => (ps.filter (·.handler == .retrieval k)).map (.answer ·.interest)
  | _ => []

def duties (k : Nat) (tasks : List Task) : List Duty := tasks.flatMap (Task.duties k)

section Duties

variable {k : Nat} {tasks tasks' : List Task} {task : Task}

@[simp] theorem duties_nil : duties k [] = [] := rfl

@[simp] theorem duties_cons : duties k (task :: tasks) = task.duties k ++ duties k tasks :=
  List.flatMap_cons

@[simp] theorem duties_append : duties k (tasks ++ tasks') = duties k tasks ++ duties k tasks' :=
  List.flatMap_append

theorem duties_eq_nil (h : ∀ task ∈ tasks, task.duties k = []) : duties k tasks = [] :=
  List.flatMap_eq_nil_iff.2 h

end Duties

/-- What the command has the transport do first. -/
def Command.op? (s : Session) : Command → Option (Op Handler)
  | .publish c => some (.publish c)
  | .expireAll => some .expireAll
  | .refuseNext n => some (.refuseNext n)
  | .expressDirectly l t i => (s.interestOf t i).toOption.map (.express · (.listener l))
  | .cancelDirectly l t i => (s.interestOf t i).toOption.map (.cancel · (.listener l))
  | _ => none

namespace Task

def op? (s : Session) : Task → Option (Op Handler)
  | .command c => c.op? s
  | .publishAll (c :: _) _ => some (.publish c)
  | .perform id (.cancel i :: _) _ => some (.cancel i (.retrieval id))
  | .perform id (.express i :: _) _ => some (.express i (.retrieval id))
  | .settle id i => s.retrievals[id]?.bind fun r =>
    if (r.discovery.settled i).2 = .keep then none else some (.cancel i (.retrieval id))
  | _ => none

/-- What an expiry that is under way is going to answer. -/
def pledge : Task → Nat
  | .timeoutAll _ total => total
  | _ => 0

def returned? : Task → Option Nat
  | .timeoutAll [] total => some total
  | _ => none

/-- The task calls the transport like this, if at all, and is not the rest of an expiry. -/
structure Orders (s : Session) (op : Option (Op Handler)) (task : Task) : Prop where
  op?_eq : task.op? s = op
  pledge_eq : task.pledge = 0
  returned?_eq : task.returned? = none

end Task

def pledges (tasks : List Task) : Nat := (tasks.map Task.pledge).sum

section Pledges

variable {task : Task} {tasks tasks' : List Task}

@[simp] theorem pledges_nil : pledges [] = 0 := rfl

@[simp] theorem pledges_cons : pledges (task :: tasks) = task.pledge + pledges tasks := by
  rw [pledges, List.map_cons, List.sum_cons, pledges]

@[simp] theorem pledges_append : pledges (tasks ++ tasks') = pledges tasks + pledges tasks' := by
  rw [pledges, List.map_append, List.sum_append_nat, pledges, pledges]

theorem pledges_eq_zero (h : ∀ t ∈ tasks, t.pledge = 0) : pledges tasks = 0 := by
  induction tasks with
  | nil => rfl
  | cons task tasks ih =>
    obtain ⟨htask, htasks⟩ := List.forall_mem_cons.1 h
    rw [pledges_cons, htask, ih htasks]

end Pledges

/-- The command calls nobody: it changes who listens, stops what runs, or is only answered. -/
def Command.CallsNobody : Command → Prop
  | .publish _ => False
  | .publishAll _ => False
  | .expireAll => False
  | .expressDirectly _ _ _ => False
  | .startDiscovery _ => False
  | .arrive _ _ _ => False
  | .arriveAll _ _ _ _ => False
  | .timeout _ _ => False
  | .start _ => False
  | .refresh _ _ => False
  | .handOver _ _ _ => False
  | .express _ _ _ _ => False
  | .refreshAll _ => False
  | .refreshLoop _ => False
  | _ => True

/-- All commands but those that have something arrive or time out that the transport knows nothing
of. -/
def Command.ByTransport : Command → Prop
  | .arrive _ _ _ => False
  | .arriveAll _ _ _ _ => False
  | .timeout _ _ => False
  | _ => True

def Command.Starts : Command → Prop
  | .startDiscovery _ => True
  | .start _ => True
  | _ => False

def Command.Closes : Command → Prop
  | .close => True
  | .dropRegistry => True
  | _ => False

def Command.Tends : Command → Prop
  | .stopDiscovery _ => True
  | .stop _ => True
  | .markStopped _ => True
  | .addListener _ _ => True
  | .removeListener _ _ => True
  | .express _ _ _ _ => True
  | .withdraw _ _ => True
  | _ => False

def Command.Refreshes : Command → Prop
  | .refresh _ _ => True
  | .refreshAll _ => True
  | .refreshLoop _ => True
  | _ => False

theorem Command.Refreshes.calls {c : Command} (h : c.Refreshes) : ¬ c.CallsNobody := by
  unfold Command.Refreshes at h
  split at h <;> first | exact id | cases h

namespace Task

def Refreshes : Task → Prop
  | .command c => c.Refreshes
  | .refreshAll _ _ _ => True
  | .refreshLoop _ => True
  | _ => False

/-- The task does nothing at the transport for a retrieval. -/
def Idle (task : Task) : Prop := ∀ k, task.duties k = []

def Tells (task : Task) : Prop := ∀ k, ∃ is : List Interest, task.duties k = is.map .answer

theorem Idle.tells {task : Task} (h : task.Idle) : task.Tells := fun k => ⟨[], h k⟩

theorem Tells.arrive (h : Handler) (c : Content) (i : Interest) : Tells (.arrive h c i) := by
  intro k
  by_cases hk : h = .retrieval k
  · exact ⟨[i], if_pos hk⟩
  · exact ⟨[], if_neg hk⟩

theorem Tells.answer (a : Answer) : Tells (.answer a) := fun _ => ⟨[], rfl⟩

theorem Tells.timeout (h : Handler) (i : Interest) : Tells (.timeout h i) := by
  intro k
  by_cases hk : h = .retrieval k
  · exact ⟨[i], if_pos hk⟩
  · exact ⟨[], if_neg hk⟩

def command? : Task → Option Command
  | .command c => some c
  | _ => none

def stops : Task → List Nat
  | .stopAll ids => ids
  | _ => []

def Skips (task : Task) (k : Nat) : Prop := task.duties k = [] ∧ task.stops.head? ≠ some k

theorem Skips.of_stops_nil {task : Task} {k : Nat} (hduties : task.duties k = [])
    (hstops : task.stops = []) : task.Skips k := ⟨hduties, by simp [hstops]⟩

structure Plain (task : Task) : Prop where
  spares : ¬ task.Refreshes
  command?_eq : task.command? = none
  stops_eq : task.stops = []
  pledge_eq : task.pledge = 0

namespace Plain

@[simp] theorem answer (a : Answer) : Plain (.answer a) := ⟨id, rfl, rfl, rfl⟩

@[simp] theorem perform (k : Nat) (actions : List Action) (anyRefused : Bool) :
    Plain (.perform k actions anyRefused) := ⟨id, rfl, rfl, rfl⟩

@[simp] theorem settle (k : Nat) (i : Interest) : Plain (.settle k i) := ⟨id, rfl, rfl, rfl⟩

@[simp] theorem arrive (h : Handler) (c : Content) (i : Interest) : Plain (.arrive h c i) :=
  ⟨id, rfl, rfl, rfl⟩

@[simp] theorem timeout (h : Handler) (i : Interest) : Plain (.timeout h i) := ⟨id, rfl, rfl, rfl⟩

@[simp] theorem handOver (k : Nat) (c : Content) (i : Interest) : Plain (.handOver k c i) :=
  ⟨id, rfl, rfl, rfl⟩

@[simp] theorem fanOut (k : Nat) (ls : List ListenerId) (c : Content) (i : Interest) :
    Plain (.fanOut k ls c i) := ⟨id, rfl, rfl, rfl⟩

@[simp] theorem countFailure (k : Nat) : Plain (.countFailure k) := ⟨id, rfl, rfl, rfl⟩

@[simp] theorem publishAll (cs : List Content) (answered : Nat) : Plain (.publishAll cs answered) :=
  ⟨id, rfl, rfl, rfl⟩

@[simp] theorem rollback (n : Name) (l : ListenerId) : Plain (.rollback n l) := ⟨id, rfl, rfl, rfl⟩

end Plain

structure Light (task : Task) : Prop where
  idle : task.Idle
  plain : task.Plain

namespace Light

theorem answer (a : Answer) : Light (.answer a) := ⟨fun _ => rfl, .answer a⟩

theorem publishAll (cs : List Content) (answered : Nat) : Light (.publishAll cs answered) :=
  ⟨fun _ => rfl, .publishAll cs answered⟩

theorem arrive (l : ListenerId) (c : Content) (i : Interest) : Light (.arrive (.listener l) c i) :=
  ⟨fun _ => by simp [Task.duties], .arrive _ c i⟩

theorem fanOut (k : Nat) (ls : List ListenerId) (c : Content) (i : Interest) :
    Light (.fanOut k ls c i) := ⟨fun _ => rfl, .fanOut k ls c i⟩

end Light

/-- What the command `c` brings on, if that is no business of a retrieval. -/
structure Follows (c : Command) (task : Task) : Prop where
  idle : task.Idle
  refreshes : task.Refreshes → c.Refreshes
  command?_eq : task.command? = none
  stops_eq : task.stops = []
  pledge_eq : task.pledge = 0
  calls : ¬ c.CallsNobody

theorem Light.follows {task : Task} {c : Command} (h : task.Light) (hc : ¬ c.CallsNobody) :
    task.Follows c :=
  ⟨h.idle, (absurd · h.plain.spares), h.plain.command?_eq, h.plain.stops_eq, h.plain.pledge_eq, hc⟩

theorem Follows.refreshAll {c : Command} (h : c.Refreshes) (ids : List Nat) (now : Time) (n : Nat) :
    Follows c (.refreshAll ids now n) :=
  ⟨fun _ => rfl, fun _ => h, rfl, rfl, rfl, h.calls⟩

theorem Follows.refreshLoop {c : Command} (h : c.Refreshes) (times : Nat) :
    Follows c (.refreshLoop times) :=
  ⟨fun _ => rfl, fun _ => h, rfl, rfl, rfl, h.calls⟩

def Tends : Task → Prop
  | .command c => c.Tends
  | .rollback _ _ => True
  | _ => False

section Tends

variable {task : Task} (h : task.Tends)

include h

theorem Tends.skips (k : Nat) : task.Skips k := by
  unfold Tends at h
  split at h <;> first | exact .of_stops_nil rfl rfl | cases h

theorem Tends.idle : task.Idle := fun k => (h.skips k).1

theorem Tends.orders (s : Session) : task.Orders s none := by
  unfold Tends at h
  split at h
  · rename_i c
    refine ⟨?_, rfl, rfl⟩
    cases c <;> first | rfl | cases h
  · exact ⟨rfl, rfl, rfl⟩
  · cases h

end Tends

inductive Publishes (c : Content) : Task → Prop where
  | command : Publishes c (.command (.publish c))
  | next (cs : List Content) (answered : Nat) : Publishes c (.publishAll (c :: cs) answered)

section Publishes

variable {c : Content} {task : Task} (h : task.Publishes c)

include h

theorem Publishes.idle : task.Idle := by
  cases h <;> exact fun _ => rfl

theorem Publishes.orders (s : Session) : task.Orders s (some (.publish c)) := by
  cases h <;> exact ⟨rfl, rfl, rfl⟩

end Publishes

def CallsBack : Task → Prop
  | .arrive (.listener _) _ _ => True
  | .timeout (.listener _) _ => True
  | _ => False

section CallsBack

variable {task : Task} (h : task.CallsBack)

include h

theorem CallsBack.idle : task.Idle := by
  unfold CallsBack at h
  split at h
  · exact fun k => by simp [Task.duties]
  · exact fun k => by simp [Task.duties]
  · cases h

theorem CallsBack.orders (s : Session) : task.Orders s none := by
  unfold CallsBack at h
  split at h <;> first | exact ⟨rfl, rfl, rfl⟩ | cases h

end CallsBack

end Task

/-- The transport is called like this, if at all: it changes for others than the retrievals, and
nothing expires. -/
structure Transport.Aside (t : Transport Handler) (op : Option (Op Handler))
    (t' : Transport Handler) : Prop where
  run : t' = op.elim t fun op => op.run t
  expiring : (op.elim 0 fun op => op.expiring t) = 0
  store : t'.store = t.store
  held : ∀ k j, (t'.heldFor (.retrieval k)).count j = (t.heldFor (.retrieval k)).count j

namespace Transport

variable {t t' : Transport Handler} {i : Interest} {l : ListenerId}

theorem Aside.uncalled (t : Transport Handler) : Aside t none t := ⟨rfl, rfl, rfl, fun _ _ => rfl⟩

theorem Aside.refuseNext (t : Transport Handler) (n : Nat) :
    Aside t (some (.refuseNext n)) (t.refuseNext n) :=
  ⟨rfl, rfl, rfl, fun _ _ => rfl⟩

theorem Aside.express {e : Expression} (ht : t.express i (.listener l) = (t', e)) :
    Aside t (some (.express i (.listener l))) t' := by
  obtain ⟨hstore, hpending, -⟩ := express_frame ht
  refine ⟨(congrArg Prod.fst ht).symm, rfl, hstore, fun k j => ?_⟩
  rw [count_heldFor, count_heldFor, hpending, List.count_append]
  split <;> simp

theorem count_heldFor_cancel_ne {h h' : Handler} (t : Transport Handler) (i : Interest)
    (hne : h' ≠ h) (j : Interest) :
    ((t.cancel i h).heldFor h').count j = (t.heldFor h').count j := by
  rw [count_heldFor, count_heldFor, cancel]
  split
  · rw [List.count_erase_of_ne]
    simpa using fun _ => hne
  · rfl

theorem Aside.cancel (t : Transport Handler) (i : Interest) (l : ListenerId) :
    Aside t (some (.cancel i (.listener l))) (t.cancel i (.listener l)) :=
  ⟨rfl, rfl, (t.cancel_frame i _).1, fun _ => t.count_heldFor_cancel_ne i (by simp)⟩

end Transport

end NamedContent
