import NamedContent.Proofs.HaltedRetrievals

/-! A stop is final. A retrieval is stopped when it is told to, when its last listener leaves, or
when the registry that lists it is closed, which lists retrievals there are; from then on its
listeners are not called, not even those whose turn in a fan-out has not come yet. What was still
to be expressed for it is withdrawn by the time the outermost call returns, provided that no
listener has anything refreshed while it is called: an expression that returns looks only for an
Interest equal to its own, and takes one that a refresh has put in its place meanwhile for the one
it has expressed itself. -/

namespace NamedContent.Session

variable {P : Command → Prop} {start s s' t : Session} {task : Task} {k id : Nat} {r : Retrieval}

/-- The next step stops the retrieval `k`: it is told to, its last listener leaves, or the first
one is taken back because the start has failed. -/
inductive Stops (s : Session) (k : Nat) : Prop where
  | told {target : Target} {r : Retrieval} {rest : List Task}
      (hagenda : s.agenda = .command (.stop target) :: rest)
      (hr : s.retrievalOf target = .ok (k, r)) : Stops s k
  | deserted {n : Name} {l : ListenerId} {registry : Registry} {r : Retrieval} {rest : List Task}
      (hagenda : s.agenda = .command (.withdraw n l) :: rest)
      (hregistry : s.registry = some registry) (hfind : registry.find? n = some k)
      (hr : s.retrievals[k]? = some r) (hl : l ∈ r.fanOut.listeners)
      (hlast : (r.fanOut.remove l).listeners = []) : Stops s k
  | takenBack {n : Name} {l : ListenerId} {fault : Fault} {registry : Registry} {r : Retrieval}
      {rest : List Task} (hagenda : s.agenda = .rollback n l :: rest)
      (hfailed : s.answer = .failed fault)
      (hregistry : s.registry = some registry) (hfind : registry.find? n = some k)
      (hr : s.retrievals[k]? = some r) (hl : l ∈ r.fanOut.listeners)
      (hlast : (r.fanOut.remove l).listeners = []) : Stops s k

/-- The next step closes the registry, which lists the retrieval `k`, or drops it. -/
def Closes (s : Session) (k : Nat) : Prop :=
  s.Lists k ∧ ∃ rest, s.agenda = .command .close :: rest ∨ s.agenda = .command .dropRegistry :: rest

theorem withdraw_last_eq {n : Name} {l : ListenerId} {registry : Registry}
    (hregistry : s.registry = some registry) (hfind : registry.find? n = some k)
    (hr : s.retrievals[k]? = some r) (hl : l ∈ r.fanOut.listeners)
    (hlast : (r.fanOut.remove l).listeners = []) (instead : Option Answer) :
    s.withdraw n l instead =
      (({ s with registry := some (registry.erase n) } : Session).modifyFanOut k fun f =>
        (f.remove l).markStopped).act k r.discovery.stop
          [.answer (instead.getD (.flag true))] := by
  have hregistered : r.fanOut.isRegistered l = true := by simpa [FanOut.isRegistered] using hl
  rw [withdraw]
  simp only [s.bind_find?_eq_some.2 ⟨hregistry, hfind⟩, withRetrieval, hr, hregistered, if_true,
    hlast, List.isEmpty_nil]
  exact s.stopRetrieval_remove hr l _ _

theorem getElem?_of_retrievalOf {target : Target} (h : s.retrievalOf target = .ok (k, r)) :
    s.retrievals[k]? = some r := by
  rw [retrievalOf] at h
  split at h
  · cases h
  · split at h
    · rename_i hr
      cases h
      exact hr
    · cases h

theorem Stops.stopped (h : s.Stops k) : s.step.Stopped k := by
  cases h with
  | @told target r rest hagenda hr =>
    have hget : (s.taken rest).retrievals[k]? = some r := getElem?_of_retrievalOf hr
    have htaken : (s.taken rest).retrievalOf target = .ok (k, r) := hr
    rw [step_cons hagenda, doTask, run, onTarget, htaken]
    simp only
    rw [stopRetrieval, withRetrieval, hget]
    exact .of_act hget rfl s.registry _
  | @deserted n l registry r rest hagenda hregistry hfind hr hl hlast =>
    have htaken : (s.taken rest).registry = some registry := hregistry
    rw [step_cons hagenda, doTask, run, onRegistry_some htaken,
      withdraw_last_eq htaken hfind hr hl hlast]
    exact .of_act (s := s.taken rest) hr rfl (some (registry.erase n)) _
  | @takenBack n l fault registry r rest hagenda hfailed hregistry hfind hr hl hlast =>
    have htaken : (s.taken rest).answer = .failed fault := hfailed
    rw [step_cons hagenda, doTask, rollback, htaken]
    simp only
    rw [withdraw_last_eq (s := s.taken rest) hregistry hfind hr hl hlast]
    exact .of_act (s := s.taken rest) hr rfl (some (registry.erase n)) _

theorem Closes.halted (h : s.Closes k) (hplaced : s.Placed) : s.step.Halted k := by
  obtain ⟨hlists, rest, hagenda⟩ := h
  obtain ⟨r, hr, howner⟩ := hplaced.listed k hlists
  obtain ⟨registry, hregistry, hk⟩ := hlists
  have htaken : (s.taken rest).registry = some registry := hregistry
  have hget := (s.taken rest).closeRegistry_getElem? registry k
  rw [show (s.taken rest).retrievals[k]? = some r from hr, Option.map_some, if_pos hk] at hget
  have hclosed : ∀ registry', Halted k { (s.taken rest).closeRegistry registry with
      registry := registry' } := by
    have hstops : k ∈ (Task.stopAll ((s.taken rest).listed registry)).stops := mem_listed.2 hk
    refine fun registry' => .inr ⟨⟨_, hget, rfl, howner⟩, _, ?_, hstops⟩
    rw [closeRegistry_eq]
    exact List.mem_cons_self
  rcases hagenda with hagenda | hagenda
  · rw [step_cons hagenda, doTask, run, onRegistry_some htaken]
    exact hclosed _
  · rw [step_cons hagenda, doTask, run, onRegistry_some htaken]
    exact hclosed none

def Serves (s : Session) (id : Nat) : Prop :=
  ∃ c i rest, s.agenda = .handOver id c i :: rest ∨ ∃ ls, s.agenda = .fanOut id ls c i :: rest

theorem call_log (s : Session) (l : ListenerId) (e : Event) (after : Outcome → List Task) :
    (s.call l e after).log = e :: s.log := rfl

theorem Executed.delivers (h : Executed s task s') {l : ListenerId} {c : Content} {i : Interest}
    (hlog : s'.log = .deliver l c i :: s.log) :
    (∃ id r c i, task = .handOver id c i ∧ s.retrievals[id]? = some r ∧
      r.discovery.isRunning = true ∧ r.owner = .listener l) ∨
    ∃ id r ls c i, task = .fanOut id ls c i ∧ s.retrievals[id]? = some r ∧
      r.fanOut.isRunning = true := by
  have hsame : ∀ {log : List Event}, log ≠ .deliver l c i :: log := by simp
  cases h with
  | @handsTo id r l' c' i' hr hrun howner =>
    rw [call_log, List.cons.injEq, Event.deliver.injEq] at hlog
    obtain ⟨⟨rfl, -⟩, -⟩ := hlog
    exact .inl ⟨id, r, c', i', rfl, hr, hrun, howner⟩
  | @fansOut id r l' rest c' i' hr hrun => exact .inr ⟨id, r, _, c', i', rfl, hr, hrun⟩
  | callsBack l' htask he =>
    rw [call_log, List.cons.injEq] at hlog
    exact absurd hlog.1 (he l c i)
  | closes =>
    rw [closeRegistry_eq] at hlog
    exact absurd hlog hsame
  | keeps n id hregistry hfind =>
    rw [keep, hfind] at hlog
    exact absurd hlog hsame
  | records | cancels | expressRefused | expressWaits | expressAnswered | settleCancels =>
    cases (List.cons.inj hlog).1
  | _ => exact absurd hlog hsame

theorem Halted.serves_other (h : s.Halted k) {l : ListenerId} {c : Content} {i : Interest}
    (hlog : s.step.log = .deliver l c i :: s.log) : ∃ id, id ≠ k ∧ s.Serves id := by
  cases hagenda : s.agenda with
  | nil =>
    rw [step_of_nil hagenda] at hlog
    simp at hlog
  | cons task rest =>
    have hlog' : s.step.log = .deliver l c i :: (s.taken rest).log := hlog
    rcases (step_executed hagenda).delivers hlog' with
      ⟨id, r, c, i, rfl, hr, hrun, howner⟩ | ⟨id, r, ls, c, i, rfl, hr, hrun⟩
    · refine ⟨id, ?_, c, i, rest, .inl hagenda⟩
      rintro rfl
      rcases h with ⟨-, r', hr', -, hphase, -⟩ | ⟨⟨r', hr', -, hne⟩, -⟩ <;>
        obtain rfl : r = r' := Option.some.inj (hr.symm.trans hr')
      · simp [Discovery.isRunning, hphase] at hrun
      · exact hne l howner
    · refine ⟨id, ?_, c, i, rest, .inr ⟨ls, hagenda⟩⟩
      rintro rfl
      rcases h with ⟨-, r', hr', hphase, -, -⟩ | ⟨⟨r', hr', hphase, -⟩, -⟩ <;>
        obtain rfl : r = r' := Option.some.inj (hr.symm.trans hr')
      · simp [FanOut.isRunning, hphase] at hrun
      · simp [FanOut.isRunning, hphase] at hrun

namespace Course

theorem placed (h : Course P start s) (hstart : start.Placed) : s.Placed :=
  h.keeps hstart (fun hkept _ _ => hkept.take_up _) fun hkept => hkept.step

theorem rests (h : Course P s t) (hlawful : s.Lawful) {slots : List Slot}
    (hrests : s.Rests k slots) : t.Rests k slots := by
  induction h with
  | start => exact hrests
  | call _ _ _ ih => exact ih
  | step h ih => exact ih.step (h.lawful hlawful)

theorem halted (h : Course P s t) (hlawful : s.Lawful) (hplaced : s.Placed) (hhalted : s.Halted k) :
    t.Halted k := by
  induction h with
  | start => exact hhalted
  | @call s _ hreturned _ _ ih =>
    rcases ih with hstopped | ⟨-, task, htask, -⟩
    · exact .inl hstopped
    · simp [hreturned] at htask
  | step h ih => exact ih.step (h.lawful hlawful) (h.placed hplaced)

/-- A stop is final: no listener is called for the retrieval afterwards, nothing of it waits at the
transport once the outermost call has returned, and its discovery is at rest for good; for a close,
once that has come to it. -/
theorem stop_is_final (h : Course P start s) (hopens : start.Opens)
    (hstops : s.Stops k ∨ s.Closes k) (ht : Course P s.step t) :
    (∀ l c i, t.step.log = .deliver l c i :: t.log → ∃ id, id ≠ k ∧ t.Serves id) ∧
    ((∀ c, P c → c.ByTransport) → start.Scripted Command.Nests → t.agenda = [] →
      ∀ p ∈ t.transport.pending, p.handler ≠ .retrieval k) ∧
    ((s.Closes k → ∀ task ∈ t.agenda, k ∉ task.stops) →
      ∃ r, t.retrievals[k]? = some r ∧ r.discovery.AtRest ∧
        ∀ u, Course P t u → ∃ r', u.retrievals[k]? = some r' ∧
          r'.discovery.phase = .stopped ∧ r'.discovery.slots = r.discovery.slots) := by
  have hlawful := h.step.lawful hopens.lawful
  have hplaced := h.step.placed hopens.placed
  have hhalted : t.Halted k := by
    refine ht.halted hlawful hplaced ?_
    rcases hstops with hstops | hcloses
    · exact .inl hstops.stopped
    · exact hcloses.halted (h.placed hopens.placed)
  have hstopped : (s.Closes k → ∀ task ∈ t.agenda, k ∉ task.stops) → t.Stopped k := by
    intro hreached
    rcases hstops with hstops | hcloses
    · obtain ⟨slots, hrests⟩ := hstops.stopped
      exact ⟨slots, ht.rests hlawful hrests⟩
    · rcases hhalted with hstopped | ⟨-, task, htask, hk⟩
      · exact hstopped
      · exact absurd hk (hreached hcloses task htask)
  refine ⟨fun l c i => hhalted.serves_other, fun hby hscripted hdone => ?_, fun hreached => ?_⟩
  · obtain ⟨slots, r, hr, -, hphase, -⟩ := hstopped fun _ => by simp [hdone]
    have hinOrder := ((h.step.trans ht).mono hby).inOrder hopens hscripted
    exact fun p hp => hinOrder.nothing_waits hdone hr hphase hp
  · obtain ⟨slots, r, hr, hfanOut, hphase, hslots⟩ := hstopped hreached
    have htlawful := ht.lawful hlawful
    refine ⟨r, hr, (htlawful.retrievals r (List.mem_of_getElem? hr)).sound.atRest hphase, ?_⟩
    intro u hu
    obtain ⟨r', hr', -, hphase', hslots'⟩ := hu.rests htlawful ⟨r, hr, hfanOut, hphase, rfl⟩
    exact ⟨r', hr', hphase', hslots'⟩

end Course

section Samples

def sampleLeaving : Session :=
  { registry := some { config := { maxExcludes := 2 }, trust := .exactKey }
    scripts := [("l", { calls := [[⟨"withdraw", .withdraw ⟨[[1]]⟩ "l"⟩]] })]
    transport := { store := [sampleContent 7] } }

def sampleCalled : Session :=
  finish 8 { sampleLeaving with agenda := [.command (.express ⟨[[1]]⟩ "l" [5, 9] none)], log := [] }

theorem Course.stop_is_final_sample :
    sampleLeaving.Opens ∧ Course Command.ByTransport sampleLeaving sampleCalled ∧
      sampleCalled.Stops 0 ∧ (sampleCalled.step.finish 12).agenda = [] ∧
      (sampleCalled.step.finish 12).issued.length = 3 ∧
      (∀ p ∈ (sampleCalled.step.finish 12).transport.pending, p.handler ≠ .retrieval 0) ∧
      ∃ r, (sampleCalled.step.finish 12).retrievals[0]? = some r ∧ r.discovery.AtRest := by
  have hopens : sampleLeaving.Opens := by
    refine ⟨rfl, by simp [sampleLeaving], ?_, by simp [sampleLeaving]⟩
    rintro registry ⟨⟩
    exact ⟨rfl, rfl⟩
  have hscripted : sampleLeaving.Scripted Command.Nests := by
    have hnests : Command.Nests (.withdraw ⟨[[1]]⟩ "l") := ⟨True.intro, id⟩
    simpa [Scripted, sampleLeaving] using hnests
  have hcourse : Course Command.ByTransport sampleLeaving sampleCalled :=
    (Course.start.call rfl True.intro).finish 8
  have hhead : sampleCalled.agenda.head? = some (.command (.withdraw ⟨[[1]]⟩ "l")) := by cbv
  have hfind : (sampleCalled.registry.bind (·.find? ⟨[[1]]⟩)) = some 0 := by cbv
  have hlisteners : sampleCalled.retrievals[0]?.map (·.fanOut.listeners) = some ["l"] := by cbv
  have hdone : (sampleCalled.step.finish 12).agenda = [] := by cbv
  have hissued : (sampleCalled.step.finish 12).issued.length = 3 := by cbv
  have hstops : sampleCalled.Stops 0 := by
    obtain ⟨rest, hagenda⟩ := List.head?_eq_some_iff.1 hhead
    obtain ⟨registry, hregistry, hfind⟩ := Option.bind_eq_some_iff.1 hfind
    obtain ⟨r, hr, hl⟩ := Option.map_eq_some_iff.1 hlisteners
    exact .deserted hagenda hregistry hfind hr (by simp [hl]) (by simp [FanOut.remove, hl])
  have hleft := Course.start.finish (P := Command.ByTransport) (s := sampleCalled.step) 12
  obtain ⟨-, hwaits, hrests⟩ := hcourse.stop_is_final hopens (.inl hstops) hleft
  obtain ⟨r, hr, hrest, -⟩ := hrests fun _ => by simp [hdone]
  have hunwaited := hwaits (fun _ => id) hscripted hdone
  exact ⟨hopens, hcourse, hstops, hdone, hissued, hunwaited, r, hr, hrest⟩

def sampleRefreshing : Session :=
  { registry := some { config := { maxExcludes := 2 }, trust := .exactKey }
    scripts := [("l", { calls := [[⟨"refresh_all", .refreshAll 5000000000⟩]] })]
    transport := { store := [sampleContent 3] } }

def sampleRefreshed : Session :=
  { sampleRefreshing.give 40 (.express ⟨[[1]]⟩ "l" [5, 9] none) with
    agenda := [.command .close], log := [] }

/-- A refresh inside a call has an Interest expressed twice, and a stop withdraws it once. -/
theorem Course.stop_leaves_waiting :
    sampleRefreshing.Opens ∧ Course Command.ByTransport sampleRefreshing sampleRefreshed ∧
      sampleRefreshed.Closes 0 ∧ (sampleRefreshed.step.finish 12).agenda = [] ∧
      ∃ p ∈ (sampleRefreshed.step.finish 12).transport.pending, p.handler = .retrieval 0 := by
  have hopens : sampleRefreshing.Opens := by
    refine ⟨rfl, by simp [sampleRefreshing], ?_, by simp [sampleRefreshing]⟩
    rintro registry ⟨⟩
    exact ⟨rfl, rfl⟩
  have hdone : (sampleRefreshing.give 40 (.express ⟨[[1]]⟩ "l" [5, 9] none)).agenda = [] := by cbv
  have hcourse : Course Command.ByTransport sampleRefreshing sampleRefreshed :=
    ((Course.start.call rfl True.intro).finish 40).call hdone True.intro
  have hlisted : sampleRefreshed.registry.map (·.entries) = some [(⟨[[1]]⟩, 0)] := by cbv
  have hwaits : (sampleRefreshed.step.finish 12).transport.pending.map (·.handler) =
      [.retrieval 0] := by cbv
  refine ⟨hopens, hcourse, ⟨?_, [], .inl rfl⟩, by cbv, ?_⟩
  · obtain ⟨registry, hregistry, hentries⟩ := Option.map_eq_some_iff.1 hlisted
    exact ⟨registry, hregistry, by simp [hentries]⟩
  · exact List.mem_map.1 (hwaits ▸ List.mem_singleton_self _)

end Samples

end NamedContent.Session
