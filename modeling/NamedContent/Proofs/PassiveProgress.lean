import NamedContent.Proofs.PassiveTasks

/-! Every step of a session whose listeners take no steps leaves less to do: fewer turns to all
slots of a retrieval, or fewer versions or strays that what is held may still bring, or a lighter
agenda. -/

namespace NamedContent.Session

open Discovery (Level)

variable {reach : Nat} {s s' : Session} {task : Task} {tasks tasks' : List Task} {id : Nat}
  {g : Retrieval → Retrieval}

def lacking (s : Session) : Nat :=
  (s.retrievals.map fun r => r.discovery.lacking s.transport.store).sum

def missing (s : Session) : Nat :=
  (s.retrievals.map fun r => r.discovery.missing s.transport.store).sum

/-- What is left to do: the turns to all slots, the versions and the strays to come, and the
tasks' weight. -/
def remains (reach : Nat) (s : Session) (tasks : List Task) : Nat × Nat × Nat × Nat :=
  (rounds tasks, s.lacking, s.missing, burden reach tasks)

structure Levels (s s' : Session) : Prop where
  lacking : s'.lacking = s.lacking
  missing : s'.missing = s.missing

theorem Levels.of_eq (hretrievals : s'.retrievals = s.retrievals)
    (hstore : s'.transport.store = s.transport.store) : s.Levels s' := by
  constructor
  · rw [Session.lacking, hretrievals, hstore, Session.lacking]
  · rw [Session.missing, hretrievals, hstore, Session.missing]

theorem Levels.of_modify (hretrievals : s'.retrievals = s.retrievals.modify id g)
    (hstore : s'.transport.store = s.transport.store)
    (hg : ∀ r, s.retrievals[id]? = some r → Level r.discovery (g r).discovery) : s.Levels s' := by
  constructor
  · rw [Session.lacking, hretrievals, hstore, Session.lacking]
    rw [map_modify_of_eq fun r hr => (hg r hr).lacking_eq _]
  · rw [Session.missing, hretrievals, hstore, Session.missing]
    rw [map_modify_of_eq fun r hr => (hg r hr).missing_eq _]

theorem remains_of_rounds (h : rounds tasks' < rounds tasks) :
    Precedes (s'.remains reach tasks') (s.remains reach tasks) := .left _ _ h

theorem remains_of_lacking (hrounds : rounds tasks' = rounds tasks)
    (h : s'.lacking < s.lacking) :
    Precedes (s'.remains reach tasks') (s.remains reach tasks) := by
  rw [remains, hrounds]
  exact .right _ (.left _ _ h)

theorem remains_of_missing (hrounds : rounds tasks' = rounds tasks)
    (hlacking : s'.lacking = s.lacking) (h : s'.missing < s.missing) :
    Precedes (s'.remains reach tasks') (s.remains reach tasks) := by
  rw [remains, hrounds, hlacking]
  exact .right _ (.right _ (.left _ _ h))

theorem remains_of_burden (hlevels : s.Levels s') (hrounds : rounds tasks' ≤ rounds tasks)
    (h : burden reach tasks' < burden reach tasks) :
    Precedes (s'.remains reach tasks') (s.remains reach tasks) := by
  rcases Nat.lt_or_eq_of_le hrounds with hlt | heq
  · exact remains_of_rounds hlt
  · rw [remains, heq, hlevels.lacking, hlevels.missing]
    exact .right _ (.right _ (.right _ h))

theorem remains_of_done (hlevels : s.Levels s') :
    Precedes (s'.remains reach tasks) (s.remains reach (task :: tasks)) := by
  refine remains_of_burden hlevels ?_ ?_
  · rw [rounds_cons]
    exact Nat.le_add_left _ _
  · rw [burden_cons]
    exact Nat.lt_add_of_pos_left (task.burden_pos reach)

theorem remains_of_lighter (hlevels : s.Levels s') (hagenda : s'.agenda = tasks ++ s.agenda)
    (hrounds : rounds tasks ≤ task.rounds) (h : burden reach tasks < task.burden reach) :
    Precedes (s'.remains reach s'.agenda) (s.remains reach (task :: s.agenda)) := by
  rw [hagenda]
  refine remains_of_burden hlevels ?_ ?_
  · rw [rounds_append, rounds_cons]
    exact Nat.add_le_add_right hrounds _
  · rw [burden_append, burden_cons]
    exact Nat.add_lt_add_right h _

theorem remains_of_fewer_rounds (tasks : List Task) (hagenda : s'.agenda = tasks ++ s.agenda)
    (hrounds : rounds tasks < task.rounds) :
    Precedes (s'.remains reach s'.agenda) (s.remains reach (task :: s.agenda)) := by
  refine remains_of_rounds ?_
  rw [hagenda, rounds_append, rounds_cons]
  exact Nat.add_lt_add_right hrounds _

section Lessens

theorem remains_arrives (hlawful : s.Lawful) {r : Retrieval} (hr : s.retrievals[id]? = some r)
    {c : Content} {i : Interest} (hc : c ∈ s.transport.store)
    (hacc : i.accepts .exactKey c = true) {a : Discovery.Absorbed}
    (ha : r.discovery.arrive s.now c i = a) :
    Precedes
      ((s.act id (a.discovery, a.actions) (if a.delivers then [.handOver id c i] else [])).remains
        reach (s.act id (a.discovery, a.actions)
          (if a.delivers then [.handOver id c i] else [])).agenda)
      (s.remains reach (.arrive (.retrieval id) c i :: s.agenda)) := by
  have hsound := hlawful.sound hr
  have hcase := hsound.arrive_level_or_lessens s.now hc hacc
  rw [ha] at hcase
  have hrounds : rounds (.perform id a.actions false ::
      (if a.delivers then [.handOver id c i] else []) ++ s.agenda) =
      rounds (.arrive (.retrieval id) c i :: s.agenda) := by
    split <;> simp [Task.rounds]
  have hmodified : ∀ f : Discovery → Nat, f a.discovery < f r.discovery →
      ((s.retrievals.modify id fun r => { r with discovery := a.discovery }).map
        fun r => f r.discovery).sum < (s.retrievals.map fun r => f r.discovery).sum :=
    fun f hlt => sum_map_modify_lt hr hlt
  rcases hcase with ⟨hlevel, hactions, hdelivers⟩ | hlacking | ⟨hlacking, hmissing⟩
  · refine remains_of_lighter (.of_modify rfl rfl fun r' hr' => ?_) rfl ?_ ?_
    · obtain rfl : r = r' := Option.some.inj (hr.symm.trans hr')
      exact hlevel
    · simp [hdelivers, Task.rounds]
    · simp [hdelivers, hactions, Task.burden, Task.load]
  · exact remains_of_lacking hrounds (hmodified (·.lacking s.transport.store) hlacking)
  · refine remains_of_missing hrounds ?_ (hmodified (·.missing s.transport.store) hmissing)
    refine congrArg List.sum (map_modify_of_eq fun r' hr' => ?_)
    obtain rfl : r = r' := Option.some.inj (hr.symm.trans hr')
    exact hlacking

theorem remains_handsOver (hreach : 0 < reach) {r : Retrieval}
    (hfew : r.fanOut.listeners.length ≤ reach) (c : Content) (i : Interest) :
    Precedes ((s.beginFanOut id r.fanOut c i []).remains reach
        (s.beginFanOut id r.fanOut c i []).agenda)
      (s.remains reach (.handOver id c i :: s.agenda)) := by
  refine remains_of_lighter (.of_eq rfl rfl) rfl ?_ ?_
  · split <;> simp [Task.rounds]
  · split
    · simp only [List.append_nil, burden_cons, burden_nil, Task.burden, Task.load]
      omega
    · simp [Task.burden, Task.load]

/-- Every step of a passive session leaves less to do. -/
theorem Executed.lessens (h : Executed s task s') (hpassive : task.Passive s.transport.store)
    (hmute : ∀ l, s.MayCall task l → s.Mute l) (hlawful : s.Lawful)
    (hreach : 0 < reach) (hfew : ∀ r ∈ s.retrievals, r.fanOut.listeners.length ≤ reach) :
    Precedes (s'.remains reach s'.agenda) (s.remains reach (task :: s.agenda)) := by
  have hsame : ∀ {id : Nat} {r r' : Retrieval} (d : Discovery), s.retrievals[id]? = some r →
      Level r.discovery d → s.retrievals[id]? = some r' → Level r'.discovery d := by
    rintro id r r' d hr hlevel hr'
    obtain rfl : r = r' := Option.some.inj (hr.symm.trans hr')
    exact hlevel
  have hcall : ∀ {l : ListenerId} {e : Event}, s.MayCall task l →
      Precedes ((s.call l e fun _ => []).remains reach (s.call l e fun _ => []).agenda)
        (s.remains reach (task :: s.agenda)) := by
    intro l e hl
    rw [(hmute l hl).call_eq]
    exact remains_of_done (.of_eq rfl rfl)
  cases h with
  | replies | records | expired => exact remains_of_done (.of_eq rfl rfl)
  | commands | asks | expires | starts | dropsOwner | registers | closes | keeps =>
    exact absurd hpassive Task.Passive.not_command
  | refreshesOnce => simp [Task.Passive, Task.Mild] at hpassive
  | publishes htask | publishAnswers htask => exact absurd htask hpassive.not_publishes
  | timesOutNext p ps n =>
    refine remains_of_lighter (.of_eq rfl rfl) rfl (by simp [Task.rounds]) ?_
    simp only [burden_cons, burden_nil, Task.burden, Task.load, List.length_cons, Nat.mul_succ]
    omega
  | callsBack l htask => exact hcall (mayCall_of_callsBack htask l)
  | cancels id i rest =>
    refine remains_of_lighter
      (.of_modify rfl (s.transport.cancel_frame i _).1 fun r hr =>
        (Discovery.Alike.cancelled (hlawful.sound hr)).toLevel) rfl (by simp [Task.rounds]) ?_
    simp only [burden_cons, burden_nil, Task.burden, Task.load, List.map_cons, List.sum_cons,
      Action.load]
    omega
  | @expressRefused id i rest anyRefused t' ht =>
    refine remains_of_lighter
      (.of_modify rfl (Transport.express_frame ht).1 fun r hr =>
        ⟨(r.discovery.refused_frame i).1, r.discovery.partitions_refused⟩) rfl
      (by simp [Task.rounds]) ?_
    simp only [burden_cons, burden_nil, Task.burden, Task.load, List.map_cons, List.sum_cons,
      Action.load]
    omega
  | expressWaits rest anyRefused ht | expressAnswered rest anyRefused ht =>
    refine remains_of_lighter (.of_eq rfl (Transport.express_frame ht).1) rfl
      (by simp [Task.rounds]) ?_
    simp only [burden_cons, burden_nil, Task.burden, Task.load, List.map_cons, List.sum_cons,
      Action.load]
    omega
  | settleKeeps hr =>
    exact remains_of_done (.of_modify rfl rfl fun r' =>
      hsame _ hr (Discovery.Alike.settled (hlawful.sound hr)).toLevel)
  | @settleCancels id i r hr =>
    exact remains_of_done (.of_modify rfl (s.transport.cancel_frame i _).1 fun r' =>
      hsame _ hr (Discovery.Alike.settled (hlawful.sound hr)).toLevel)
  | @arrives id r c i hr =>
    obtain ⟨hc, hacc⟩ : c ∈ s.transport.store ∧ i.accepts .exactKey c = true := by
      simpa [Task.Passive, Task.Mild] using hpassive
    exact remains_arrives hlawful hr hc hacc rfl
  | @timesOut id r i hr =>
    obtain ⟨hlevel, hactions⟩ := (hlawful.sound hr).timeout_level s.now i
    refine remains_of_lighter (.of_modify rfl rfl fun r' => hsame _ hr hlevel) rfl
      (by simp [Task.rounds]) ?_
    rcases hactions with hactions | hactions <;>
      simp only [hactions, burden_cons, burden_nil, Task.burden, Task.load, List.map_cons,
        List.map_nil, List.sum_cons, List.sum_nil, Action.load] <;> omega
  | handsTo c i hr _ howner => exact hcall ⟨_, hr, howner⟩
  | handsOver c i hr => exact remains_handsOver hreach (hfew _ (List.mem_of_getElem? hr)) c i
  | @fansOut id r l rest c i =>
    rw [(hmute l List.mem_cons_self).call_eq]
    refine remains_of_lighter (.of_eq rfl rfl) rfl ?_ ?_
    · split <;> simp [Task.rounds]
    · split <;> simp only [List.cons_append, List.nil_append, burden_cons, burden_nil, Task.burden,
        Task.load, List.length_cons] <;> omega
  | skips id l rest =>
    refine remains_of_lighter (.of_eq rfl rfl) rfl (by simp [Task.rounds]) ?_
    simp only [burden_cons, burden_nil, Task.burden, List.length_cons]
    omega
  | countsFailure id =>
    exact remains_of_done (.of_modify rfl rfl fun r _ => .refl r.discovery)
  | stops htends =>
    refine remains_of_fewer_rounds _ rfl ?_
    rw [hpassive.rounds_of_tends htends]
    simp [Task.rounds]
  | stopsNext ids hr => exact remains_of_fewer_rounds _ rfl (by simp [Task.rounds])
  | refreshes ids now n hr => exact remains_of_fewer_rounds _ rfl (by simp [Task.rounds])
  | tends a htends =>
    refine remains_of_fewer_rounds [] rfl ?_
    rw [hpassive.rounds_of_tends htends]
    exact Nat.zero_lt_one

end Lessens

end NamedContent.Session
