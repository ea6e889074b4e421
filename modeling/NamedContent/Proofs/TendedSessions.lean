import NamedContent.Proofs.TendedMoves
import NamedContent.Proofs.SessionDiscoveries

/-! Sessions of any retrievals, moment by moment. If content arrives and Interests time out by the
transport only, and no listener has anything refreshed while it is called, then at every moment
what the transport holds for each retrieval is accounted for. A refresh finds nothing left to do,
since what refreshes is never called from inside another call. -/

namespace NamedContent

/-- What may be done from inside a call. -/
structure Command.Nests (c : Command) : Prop where
  byTransport : c.ByTransport
  spares : ¬ c.Refreshes

/-- Behind a task that refreshes nothing is left to do for a retrieval. -/
def Sheltered (tasks : List Task) : Prop := tasks.Pairwise fun t u => t.Refreshes → u.Idle

theorem Sheltered.of_spares {tasks : List Task} (h : ∀ t ∈ tasks, ¬ t.Refreshes) :
    Sheltered tasks :=
  List.Pairwise.imp_mem.2 (List.pairwise_of_forall fun t _ ht _ hrefreshes =>
    absurd hrefreshes (h t ht))

theorem Sheltered.push {task : Task} {tasks rest : List Task} (h : Sheltered (task :: rest))
    (htasks : Sheltered tasks) (hrefreshes : ∀ t ∈ tasks, t.Refreshes → task.Refreshes) :
    Sheltered (tasks ++ rest) := by
  obtain ⟨hhead, hrest⟩ := List.pairwise_cons.1 h
  exact List.pairwise_append.2
    ⟨htasks, hrest, fun t ht u hu htrue => hhead u hu (hrefreshes t ht htrue)⟩

namespace Session

/-- Whatever a listener does when it is called is of this kind. -/
def Scripted (P : Command → Prop) (s : Session) : Prop :=
  ∀ p ∈ s.scripts, ∀ steps ∈ p.2.calls, ∀ step ∈ steps, P step.command

variable {P : Command → Prop} {s s' : Session} {task : Task} {k : Nat} {r : Retrieval}

theorem Scripted.stepsAt (h : s.Scripted P) {l : ListenerId} {n : Nat} {step : Step}
    (hstep : step ∈ (s.script l).stepsAt n) : P step.command := by
  obtain ⟨p, hp, steps, hsteps, hmem⟩ := exists_calls_of_mem_stepsAt hstep
  exact h p hp steps hsteps step hmem

def Lists (s : Session) (id : Nat) : Prop :=
  ∃ registry, s.registry = some registry ∧ id ∈ registry.entries.map (·.2)

theorem lists_iff {registry : Registry} (h : s.registry = some registry) :
    s.Lists k ↔ k ∈ registry.entries.map (·.2) := by
  simp only [Lists, h, Option.some.injEq, exists_eq_left']

/-- The step that did `task` has brought on tasks of these kinds, in front of what was left. -/
structure Brings (P : Command → Prop) (s : Session) (task : Task) (s' : Session) : Prop where
  scripts : s'.scripts = s.scripts
  agenda : ∃ tasks, s'.agenda = tasks ++ s.agenda ∧
    ((∀ c, P c → ¬ c.Refreshes) → Sheltered tasks ∧ ∀ t ∈ tasks, t.Refreshes → task.Refreshes) ∧
    ∀ t ∈ tasks, (∀ c, t.command? = some c → P c) ∧ ∀ id ∈ t.stops, id ∈ task.stops ∨ s.Lists id

theorem Brings.of_spares (hscripts : s'.scripts = s.scripts) (tasks : List Task)
    (hagenda : s'.agenda = tasks ++ s.agenda)
    (hspares : (∀ c, P c → ¬ c.Refreshes) → ∀ t ∈ tasks, ¬ t.Refreshes)
    (htasks : ∀ t ∈ tasks, (∀ c, t.command? = some c → P c) ∧
      ∀ id ∈ t.stops, id ∈ task.stops ∨ s.Lists id) : s.Brings P task s' :=
  ⟨hscripts, tasks, hagenda, fun hquiet => ⟨.of_spares (hspares hquiet), fun t ht hrefreshes =>
    absurd hrefreshes (hspares hquiet t ht)⟩, htasks⟩

theorem Brings.of_plain (hscripts : s'.scripts = s.scripts) (tasks : List Task)
    (hagenda : s'.agenda = tasks ++ s.agenda) (htasks : ∀ t ∈ tasks, t.Plain) :
    s.Brings P task s' := by
  refine .of_spares hscripts tasks hagenda (fun _ t ht => (htasks t ht).spares) fun t ht => ?_
  simp [(htasks t ht).command?_eq, (htasks t ht).stops_eq]

theorem Scripted.of_mem_steps (h : s.Scripted P) {l : ListenerId} {n : Nat} {t : Task}
    (ht : t ∈ ((s.script l).stepsAt n).flatMap fun step =>
      [Task.command step.command, .record step.label]) :
    (∃ label, t = .record label) ∨ ∃ c, t = .command c ∧ P c := by
  obtain ⟨step, hstep, hmem⟩ := List.mem_flatMap.1 ht
  simp only [List.mem_cons, List.not_mem_nil, or_false] at hmem
  rcases hmem with rfl | rfl
  · exact .inr ⟨_, rfl, h.stepsAt hstep⟩
  · exact .inl ⟨_, rfl⟩

theorem Brings.call (hscripts : s.Scripted P) (l : ListenerId) (e : Event)
    {after : Outcome → List Task} (hafter : ∀ outcome, ∀ t ∈ after outcome, t.Plain) :
    s.Brings P task (s.call l e after) := by
  refine .of_spares rfl _ rfl (fun hquiet t ht => ?_) fun t ht => ?_
  · rcases List.mem_append.1 ht with ht | ht
    · rcases hscripts.of_mem_steps ht with ⟨label, rfl⟩ | ⟨c, rfl, hc⟩
      · exact id
      · exact hquiet c hc
    · exact (hafter _ t ht).spares
  · rcases List.mem_append.1 ht with ht | ht
    · rcases hscripts.of_mem_steps ht with ⟨label, rfl⟩ | ⟨c, rfl, hc⟩
      · simp [Task.command?, Task.stops]
      · refine ⟨fun c' hc' => ?_, fun id => (absurd · List.not_mem_nil)⟩
        obtain rfl : c = c' := Option.some.inj hc'
        exact hc
    · simp [(hafter _ t ht).command?_eq, (hafter _ t ht).stops_eq]

theorem Executed.brings (h : Executed s task s') (hscripts : s.Scripted P) :
    s.Brings P task s' := by
  have hnone : ∀ {s' : Session}, s'.scripts = s.scripts → s'.agenda = s.agenda →
      s.Brings P task s' := fun hs ha => .of_plain hs [] ha (by simp)
  have hone : ∀ {s' : Session} {t : Task}, s'.scripts = s.scripts → s'.agenda = t :: s.agenda →
      t.Plain → s.Brings P task s' := fun hs ha ht =>
    .of_plain hs [_] ha (List.forall_mem_singleton.2 ht)
  cases h with
  | replies | records | expired => exact hnone rfl rfl
  | @commands c t' tasks a haside htasks =>
    refine ⟨rfl, tasks, rfl, fun _ => ⟨?_, fun t ht => (htasks t ht).refreshes⟩, fun t ht => ?_⟩
    · exact List.Pairwise.imp_mem.2 (List.pairwise_of_forall fun _ u _ hu _ => (htasks u hu).idle)
    · simp [(htasks t ht).command?_eq, (htasks t ht).stops_eq]
  | asks hc htasks =>
    exact .of_plain rfl _ rfl fun t ht => (htasks t ht).2
  | publishes htask ht hafter =>
    exact .of_plain rfl _ rfl fun t ht => (hafter t ht).plain
  | publishAnswers htask ht hafter =>
    exact .of_plain rfl _ rfl
      (List.forall_mem_cons.2 ⟨.arrive _ _ _, fun t ht => (hafter t ht).plain⟩)
  | expires =>
    refine .of_spares rfl [.timeoutAll _ _] rfl (fun _ => ?_) ?_
    · simp [Task.Refreshes]
    · simp [Task.command?, Task.stops]
  | timesOutNext p ps n =>
    refine .of_spares rfl [_, .timeoutAll ps n] rfl (fun _ => ?_) ?_
    · simp [Task.Refreshes]
    · simp [Task.command?, Task.stops]
  | callsBack l => exact .call hscripts l _ (by simp)
  | cancels | expressRefused => exact hone rfl rfl (.perform _ _ _)
  | expressWaits =>
    exact .of_plain rfl [_, _] rfl (by simp)
  | expressAnswered =>
    exact .of_plain rfl [_, _, _] rfl (by simp)
  | settleKeeps | settleCancels => exact hnone rfl rfl
  | arrives =>
    refine .of_plain rfl _ rfl (List.forall_mem_cons.2 ⟨.perform _ _ _, fun t ht => ?_⟩)
    split at ht
    · rw [List.mem_singleton.1 ht]
      exact .handOver _ _ _
    · cases ht
  | timesOut => exact hone rfl rfl (.perform _ _ _)
  | handsTo => exact .call hscripts _ _ (by simp)
  | handsOver =>
    refine .of_plain rfl _ rfl fun t ht => ?_
    rw [List.append_nil] at ht
    split at ht
    · rw [List.mem_singleton.1 ht]
      exact .fanOut _ _ _ _
    · cases ht
  | fansOut =>
    refine .call hscripts _ _ fun outcome => ?_
    cases outcome <;> simp [Outcome.isFailure]
  | skips => exact hone rfl rfl (.fanOut _ _ _ _)
  | countsFailure => exact hnone rfl rfl
  | starts => exact hone rfl rfl (.perform _ _ _)
  | stops =>
    exact .of_plain rfl [_, _] rfl (by simp)
  | stopsNext ids =>
    refine .of_spares rfl [_, .stopAll ids] rfl (fun _ => ?_) ?_
    · simp [Task.Refreshes]
    · simp +contextual [Task.command?, Task.stops]
  | refreshes ids now n =>
    refine ⟨rfl, [_, .refreshAll ids now n], rfl, fun _ => ?_, ?_⟩
    · simp [Sheltered, Task.Refreshes]
    · simp [Task.command?, Task.stops]
  | refreshesOnce ids now times =>
    refine ⟨rfl, [.refreshAll ids now 0, .refreshLoop times], rfl, fun _ => ?_, ?_⟩
    · simp [Sheltered, Task.Idle, Task.duties, Task.Refreshes]
    · simp [Task.command?, Task.stops]
  | tends | dropsOwner => exact hnone rfl rfl
  | registers =>
    exact .of_plain rfl [_, _] rfl (by simp)
  | @closes _ hc registry hregistry =>
    rw [closeRegistry_eq]
    refine .of_spares rfl [.stopAll (s.listed registry), .answer .done] rfl
      (fun _ => ?_) (List.forall_mem_cons.2 ⟨⟨by simp [Task.command?], fun id hid => ?_⟩, ?_⟩)
    · simp [Task.Refreshes]
    · exact .inr ⟨registry, hregistry, mem_listed.1 hid⟩
    · simp [Task.command?, Task.stops]
  | keeps n id hregistry hfind =>
    rw [keep, hfind]
    exact hnone rfl rfl

theorem step_scripts (s : Session) : s.step.scripts = s.scripts := by
  cases hagenda : s.agenda with
  | nil => rw [step_of_nil hagenda]
  | cons task rest =>
    have hscripted : (s.taken rest).Scripted fun _ => True := fun _ _ _ _ _ _ => True.intro
    exact ((step_executed hagenda).brings hscripted).scripts

theorem Scripted.mono {Q : Command → Prop} (h : s.Scripted P) (hpq : ∀ c, P c → Q c) :
    s.Scripted Q := fun p hp steps hsteps step hstep => hpq _ (h p hp steps hsteps step hstep)

def TendedOrAway (s : Session) (k : Nat) : Prop :=
  (∃ r, s.retrievals[k]? = some r ∧ (s.sight k r).Tended) ∨ s.Away k

theorem TendedOrAway.tended (h : s.TendedOrAway k) (hr : s.retrievals[k]? = some r) :
    (s.sight k r).Tended := by
  rcases h with ⟨r', hr', htended⟩ | haway
  · obtain rfl : r' = r := Option.some.inj (hr'.symm.trans hr)
    exact htended
  · rw [haway.absent] at hr
    cases hr

theorem TendedOrAway.away (h : s.TendedOrAway k) (hnone : s.retrievals[k]? = none) : s.Away k := by
  rcases h with ⟨r, hr, -⟩ | haway
  · rw [hnone] at hr
    cases hr
  · exact haway

/-- At this moment what is held for each retrieval is accounted for, and it stays so. -/
structure InOrder (s : Session) : Prop where
  lawful : s.Lawful
  tended : ∀ {k r}, s.retrievals[k]? = some r → (s.sight k r).Tended
  away : ∀ {k}, s.retrievals[k]? = none → s.Away k
  sheltered : Sheltered s.agenda
  commands : ∀ {c}, .command c ∈ s.agenda → c.ByTransport
  scripted : s.Scripted Command.Nests

namespace InOrder

theorem tendedOrAway (h : s.InOrder) (k : Nat) : s.TendedOrAway k := by
  cases hr : s.retrievals[k]? with
  | some r => exact .inl ⟨r, hr, h.tended hr⟩
  | none => exact .inr (h.away hr)

theorem tendedOrAway_step (h : s.InOrder) {rest : List Task} (hagenda : s.agenda = task :: rest)
    (hby : ∀ c, task = .command c → c.ByTransport) (k : Nat) : s.step.TendedOrAway k := by
  have hexecuted := step_executed hagenda
  rcases h.tendedOrAway k with ⟨r, hr, htended⟩ | ⟨habsent, hheld, hduties⟩
  · have hsheltered := h.sheltered
    rw [hagenda] at hsheltered
    have hundisturbed : (s.taken rest).Undisturbed task k r :=
      ⟨hby, fun hrefreshes _ => duties_eq_nil fun u hu =>
        (List.pairwise_cons.1 hsheltered).1 u hu hrefreshes k⟩
    obtain ⟨r', hr', hmoves⟩ := hexecuted.movesTo hr
    rw [sight, hagenda, duties_cons] at htended
    exact .inl ⟨r', hr', hmoves.tended hundisturbed htended⟩
  · rw [hagenda, duties_cons, List.append_eq_nil_iff] at hduties
    have htaken : (s.taken rest).Away k := ⟨habsent, hheld, hduties.2⟩
    rcases hexecuted.away_or_born hby h.lawful.registry htaken hduties.1 with
      haway | ⟨d, l, hd, hphase, hr', hsight⟩
    · exact .inr haway
    · have hstarted := (Sight.Tended.of_created hd hphase).start (s.taken rest).now
      rw [List.append_nil] at hstarted
      refine .inl ⟨_, hr', ?_⟩
      rw [hsight]
      exact hstarted

theorem step (h : s.InOrder) : s.step.InOrder := by
  cases hagenda : s.agenda with
  | nil => rwa [step_of_nil hagenda]
  | cons task rest =>
    have hcommands : ∀ {c}, .command c ∈ task :: rest → c.ByTransport := hagenda ▸ h.commands
    have hkept := h.tendedOrAway_step hagenda fun c hc => hcommands (hc ▸ List.mem_cons_self)
    obtain ⟨hscripts, tasks, hagenda', htasks, hbrings⟩ := (step_executed hagenda).brings h.scripted
    obtain ⟨htasks, hrefreshes⟩ := htasks fun c hc => hc.spares
    refine ⟨h.lawful.step, fun {k r'} hr' => (hkept k).tended hr', fun {k} hnone =>
      (hkept k).away hnone, ?_, fun {c} hc => ?_, ?_⟩
    · have hsheltered := h.sheltered
      rw [hagenda] at hsheltered
      rw [hagenda']
      exact hsheltered.push htasks hrefreshes
    · rw [hagenda', List.mem_append] at hc
      rcases hc with hc | hc
      · exact ((hbrings _ hc).1 c rfl).byTransport
      · exact hcommands (List.mem_cons_of_mem task hc)
    · rw [Scripted, hscripts]
      exact h.scripted

theorem take_up (h : s.InOrder) (hdone : s.agenda = []) {c : Command} (hc : c.ByTransport) :
    ({ s with agenda := [.command c], log := [] } : Session).InOrder where
  lawful := ⟨h.lawful.retrievals, h.lawful.registry⟩
  tended {k r} hr := by
    have htended := h.tended hr
    rw [sight, hdone] at htended
    exact htended
  away {k} hnone := ⟨hnone, (h.away hnone).held, rfl⟩
  sheltered := List.pairwise_singleton _ _
  commands {c'} hc' := by
    obtain rfl : c' = c := by simpa using hc'
    exact hc
  scripted := h.scripted

theorem nothing_waits (h : s.InOrder) (hdone : s.agenda = []) (hr : s.retrievals[k]? = some r)
    (hphase : r.discovery.phase = .stopped) {p : Pending Handler} (hp : p ∈ s.transport.pending) :
    p.handler ≠ .retrieval k := by
  intro hmine
  have htended := h.tended hr
  rw [sight, hdone] at htended
  have hzero := htended.held_eq_zero hphase p.interest
  rw [held, List.count_eq_zero, Transport.mem_heldFor, ← hmine] at hzero
  exact hzero hp

end InOrder

/-- Nothing is under way: the retrievals there are have been made but not started, no name is
registered, and what waits at the transport is for others. -/
structure Opens (s : Session) : Prop where
  idle : s.agenda = []
  created : ∀ r ∈ s.retrievals, r.discovery.Reachable ∧ r.discovery.phase = .created
  registry : ∀ registry, s.registry = some registry →
    registry.config.Valid ∧ registry.entries = []
  unasked : ∀ p ∈ s.transport.pending, ∀ k, p.handler ≠ .retrieval k

theorem Opens.lawful (h : s.Opens) : s.Lawful where
  retrievals r hr := (h.created r hr).1
  registry registry hregistry := (h.registry registry hregistry).1

theorem Opens.inOrder (h : s.Opens) (hscripted : s.Scripted Command.Nests) : s.InOrder := by
  have hheld : ∀ k j, s.held k j = 0 := fun k j => List.count_eq_zero.2 fun hj =>
    h.unasked _ (Transport.mem_heldFor.1 hj) k rfl
  refine ⟨h.lawful, fun {k r} hr => ?_, fun {k} hnone => ⟨hnone, hheld k, by rw [h.idle]; rfl⟩, ?_,
    fun {c} hc => ?_, hscripted⟩
  · obtain ⟨hreachable, hphase⟩ := h.created r (List.mem_of_getElem? hr)
    rw [sight, h.idle, funext (hheld k)]
    exact .of_created hreachable.sound hphase
  · rw [h.idle]
    exact .nil
  · rw [h.idle] at hc
    cases hc

/-- The moments of a course of calls, made one after the other. -/
inductive Course (P : Command → Prop) (start : Session) : Session → Prop where
  | start : Course P start start
  | call {s : Session} (h : Course P start s) (hreturned : s.agenda = []) {c : Command}
      (hc : P c) : Course P start { s with agenda := [.command c], log := [] }
  | step {s : Session} (h : Course P start s) : Course P start s.step

namespace Course

variable {start t : Session}

theorem keeps {K : Session → Prop} (h : Course P start s) (hstart : K start)
    (hcall : ∀ {s c}, K s → s.agenda = [] → P c →
      K { s with agenda := [.command c], log := [] })
    (hstep : ∀ {s}, K s → K s.step) : K s := by
  induction h with
  | start => exact hstart
  | call _ hreturned hc ih => exact hcall ih hreturned hc
  | step _ ih => exact hstep ih

theorem trans (h : Course P start s) (h' : Course P s t) : Course P start t :=
  h'.keeps h (fun hkept hreturned hc => hkept.call hreturned hc) fun hkept => hkept.step

theorem finish (h : Course P start s) (fuel : Nat) : Course P start (s.finish fuel) :=
  finish_induction (K := Course P start) (fun hkept => hkept.step) h fuel

theorem give (h : Course P start s) (hreturned : s.agenda = []) {c : Command} (hc : P c)
    (fuel : Nat) : Course P start (s.give fuel c) := (h.call hreturned hc).finish fuel

theorem mono {Q : Command → Prop} (h : Course P start s) (hpq : ∀ c, P c → Q c) :
    Course Q start s := by
  induction h with
  | start => exact .start
  | call _ hreturned hc ih => exact ih.call hreturned (hpq _ hc)
  | step _ ih => exact ih.step

theorem scripted {Q : Command → Prop} (h : Course P start s) (hstart : start.Scripted Q) :
    s.Scripted Q :=
  h.keeps hstart (fun hkept _ _ => hkept) fun {s} hkept => by
    rw [Scripted, step_scripts]
    exact hkept

theorem lawful (h : Course P start s) (hstart : start.Lawful) : s.Lawful :=
  h.keeps hstart (fun hkept _ _ => ⟨hkept.retrievals, hkept.registry⟩) fun hkept => hkept.step

theorem inOrder (h : Course Command.ByTransport start s) (hopens : start.Opens)
    (hscripted : start.Scripted Command.Nests) : s.InOrder :=
  h.keeps (hopens.inOrder hscripted) (fun hkept hreturned hc => hkept.take_up hreturned hc)
    fun hkept => hkept.step

end Course

end Session

end NamedContent
