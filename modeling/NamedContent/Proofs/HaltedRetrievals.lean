import NamedContent.Proofs.DeliverySafety
import NamedContent.Proofs.TendedSessions

/-! A retrieval that has been stopped stays so, whatever comes: its slots ask for nothing, and its
listeners are not called. The same is true of one that is about to be stopped with all others of a
registry that is closed. -/

namespace NamedContent

namespace Discovery

variable {d : Discovery}

structure AtRest (d : Discovery) : Prop where
  phase : d.phase = .stopped
  outstanding : d.outstanding = []
  start : ∀ now, d.start now = (d, [])
  arrive : ∀ now c i, d.arrive now c i = { discovery := d }
  timeout : ∀ now i, d.timeout now i = (d, [])
  refresh : ∀ now, d.refresh now = (d, [])

theorem start_stopped (hphase : d.phase = .stopped) (now : Time) : d.start now = (d, []) := by
  simp [Discovery.start, hphase]

theorem refresh_stopped (hphase : d.phase = .stopped) (now : Time) : d.refresh now = (d, []) := by
  simp [Discovery.refresh, isRunning, hphase]

theorem Sound.atRest (h : d.Sound) (hphase : d.phase = .stopped) : d.AtRest where
  phase := hphase
  outstanding := h.outstanding_eq_nil (by simp [hphase])
  start := start_stopped hphase
  arrive _ _ _ := arrive_stopped hphase
  timeout _ _ := timeout_stopped hphase
  refresh := refresh_stopped hphase

theorem AtRest.move (h : d.AtRest) (m : Move) :
    (m.apply d).phase = .stopped ∧ (m.apply d).slots = d.slots := by
  have hsame : d.phase = .stopped ∧ d.slots = d.slots := ⟨h.phase, rfl⟩
  cases m with
  | start now => simpa [Move.apply, h.start now] using hsame
  | stop => simpa [Move.apply, stop_stopped h.phase] using hsame
  | refresh now => simpa [Move.apply, h.refresh now] using hsame
  | timeout now i => simpa [Move.apply, h.timeout now i] using hsame
  | arrive now c i => simpa [Move.apply, h.arrive now c i] using hsame
  | refused i =>
    have hask : d.slotAwaiting? i = none := by
      refine Option.eq_none_iff_forall_ne_some.2 fun j hj => ?_
      obtain ⟨pre, s, post, hslots, -, hs⟩ := slotAwaiting?_eq_some hj
      have hout : i ∈ d.outstanding := mem_outstanding.2 ⟨s, by simp [hslots], hs⟩
      rw [h.outstanding] at hout
      cases hout
    have hslots : (d.refused i).slots = d.slots := by rw [d.refused_slots, hask, Option.elim_none]
    exact ⟨(refused_frame d i).2.trans h.phase, hslots⟩
  | settled i => exact ⟨(settled_frame d i).2.trans h.phase, settled_slots d i⟩
  | cancelled => exact hsame

end Discovery

namespace Session

variable {P : Command → Prop} {start s s' t : Session} {task : Task} {k id : Nat} {r : Retrieval}

/-- What is listed, and what is yet to be stopped, are retrievals that there are; what is listed
is handed over to listeners of its own. -/
structure Placed (s : Session) : Prop where
  listed : ∀ id, s.Lists id → ∃ r, s.retrievals[id]? = some r ∧ ∀ l, r.owner ≠ .listener l
  stops : ∀ task ∈ s.agenda, ∀ id ∈ task.stops, id < s.retrievals.length

theorem Placed.lt (h : s.Placed) (hid : s.Lists id) : id < s.retrievals.length := by
  obtain ⟨r, hr, -⟩ := h.listed id hid
  exact (List.getElem?_eq_some_iff.1 hr).1

theorem Lists.of_keeps (hkeeps : s.Keeps s'.registry) (h : s'.Lists id) : s.Lists id := by
  obtain ⟨registry', hregistry', hid⟩ := h
  obtain ⟨registry, hregistry, -, -, hentries⟩ := hkeeps registry' hregistry'
  exact ⟨registry, hregistry, List.map_subset _ hentries hid⟩

theorem Placed.step (h : s.Placed) : s.step.Placed := by
  cases hagenda : s.agenda with
  | nil => rwa [step_of_nil hagenda]
  | cons task rest =>
    have hexecuted := step_executed hagenda
    have hle : s.retrievals.length ≤ s.step.retrievals.length := hexecuted.length_le
    have hstops : ∀ t ∈ task :: rest, ∀ id ∈ t.stops, id < s.retrievals.length := hagenda ▸ h.stops
    refine ⟨fun id hid => ?_, fun t ht id hid => ?_⟩
    · rcases hexecuted.keeps_or_grows with hkeeps | ⟨registry, n, l, d, hregistry, hs'⟩
      · obtain ⟨r, hr, howner⟩ := h.listed id (.of_keeps hkeeps hid)
        obtain ⟨r', hr', hmoves⟩ := hexecuted.moves hr
        exact ⟨r', hr', fun l => hmoves.owner_ne (howner l)⟩
      · obtain ⟨registry', hregistry', hid⟩ := hid
        rw [hs'] at hregistry' ⊢
        obtain rfl := Option.some.inj hregistry'
        simp only [registered, Registry.insert, List.map_append, List.map_cons, List.map_nil,
          List.mem_append, List.mem_singleton] at hid ⊢
        rcases hid with hid | rfl
        · obtain ⟨r, hr, howner⟩ := h.listed id ⟨registry, hregistry, hid⟩
          exact ⟨r, (List.getElem?_append_left (List.getElem?_eq_some_iff.1 hr).1).trans hr, howner⟩
        · exact ⟨_, List.getElem?_concat_length, fun l howner => by cases howner⟩
    · have hscripted : (s.taken rest).Scripted fun _ => True := fun _ _ _ _ _ _ => True.intro
      obtain ⟨-, tasks, hagenda', -, hbrings⟩ := hexecuted.brings hscripted
      rw [hagenda', List.mem_append] at ht
      rcases ht with ht | ht
      · rcases (hbrings t ht).2 id hid with hid | hid
        · exact Nat.lt_of_lt_of_le (hstops task List.mem_cons_self id hid) hle
        · exact Nat.lt_of_lt_of_le (h.lt hid) hle
      · exact Nat.lt_of_lt_of_le (hstops t (List.mem_cons_of_mem task ht) id hid) hle

theorem Placed.take_up (h : s.Placed) (c : Command) :
    ({ s with agenda := [.command c], log := [] } : Session).Placed :=
  ⟨h.listed, List.forall_mem_singleton.2 fun _ => (absurd · List.not_mem_nil)⟩

theorem Opens.placed (h : s.Opens) : s.Placed := by
  refine ⟨?_, ?_⟩
  · rintro id ⟨registry, hregistry, hid⟩
    rw [(h.registry registry hregistry).2] at hid
    cases hid
  · rw [h.idle]
    simp

def Rests (k : Nat) (slots : List Slot) (s : Session) : Prop :=
  ∃ r, s.retrievals[k]? = some r ∧ r.fanOut.phase = .stopped ∧ r.discovery.phase = .stopped ∧
    r.discovery.slots = slots

def Stopped (k : Nat) (s : Session) : Prop := ∃ slots, s.Rests k slots

/-- The retrieval `k` has been stopped, or the registry that listed it has been closed and is still
to come to it. -/
def Halted (k : Nat) (s : Session) : Prop :=
  s.Stopped k ∨ (∃ r, s.retrievals[k]? = some r ∧ r.fanOut.phase = .stopped ∧
    ∀ l, r.owner ≠ .listener l) ∧ ∃ task ∈ s.agenda, k ∈ task.stops

theorem Executed.moves_stopped (h : Executed s task s') (hlawful : s.Lawful)
    (hr : s.retrievals[k]? = some r) (hphase : r.discovery.phase = .stopped) :
    ∃ r', s'.retrievals[k]? = some r' ∧ r.Moves r' ∧ r'.discovery.phase = .stopped ∧
      r'.discovery.slots = r.discovery.slots := by
  have hrest := (hlawful.sound hr).atRest hphase
  obtain ⟨r', hr', hmoves⟩ := h.moves hr
  refine ⟨r', hr', hmoves, ?_⟩
  rcases hmoves.discovery with hd | ⟨m, hd⟩
  · rw [hd]
    exact ⟨hphase, rfl⟩
  · rw [hd]
    exact hrest.move m

theorem Rests.step {slots : List Slot} (h : s.Rests k slots) (hlawful : s.Lawful) :
    s.step.Rests k slots := by
  cases hagenda : s.agenda with
  | nil => rwa [step_of_nil hagenda]
  | cons task rest =>
    obtain ⟨r, hr, hfanOut, hphase, hslots⟩ := h
    obtain ⟨r', hr', hmoves, hphase', hslots'⟩ :=
      (step_executed hagenda).moves_stopped (hlawful.of_eq rfl rfl) hr hphase
    exact ⟨r', hr', hmoves.fanOut hfanOut, hphase', hslots'.trans hslots⟩

theorem Stopped.step (h : s.Stopped k) (hlawful : s.Lawful) : s.step.Stopped k :=
  h.imp fun _ hrests => hrests.step hlawful

theorem Stopped.of_act (hr : s.retrievals[id]? = some r) {f : FanOut → FanOut}
    (hf : (f r.fanOut).phase = .stopped) (registry : Option Registry) (after : List Task) :
    ((({ s with registry } : Session).modifyFanOut id f).act id r.discovery.stop after).Stopped
      id := by
  refine ⟨_, { r with discovery := r.discovery.stop.1, fanOut := f r.fanOut }, ?_, hf,
    r.discovery.stop_phase, rfl⟩
  rw [act_getElem?, modifyFanOut_getElem?, hr]
  simp

theorem stopNext_cons (hr : s.retrievals[id]? = some r) (ids : List Nat) :
    s.stopNext (id :: ids) =
      (s.modifyFanOut id (·.markStopped)).act id r.discovery.stop [.stopAll ids] := by
  rw [stopNext, stopRetrieval, withRetrieval, hr]

theorem Halted.step (h : s.Halted k) (hlawful : s.Lawful) (hplaced : s.Placed) :
    s.step.Halted k := by
  rcases h with hstopped | ⟨⟨r, hr, hfanOut, howner⟩, task', htask', hk⟩
  · exact .inl (hstopped.step hlawful)
  · cases hagenda : s.agenda with
    | nil => simp [hagenda] at htask'
    | cons task rest =>
      have hexecuted := step_executed hagenda
      obtain ⟨r', hr', hmoves⟩ := hexecuted.moves hr
      have hlater : (∃ t ∈ s.step.agenda, k ∈ t.stops) → s.step.Halted k := fun hstops =>
        .inr ⟨⟨r', hr', hmoves.fanOut hfanOut, fun l => hmoves.owner_ne (howner l)⟩, hstops⟩
      rw [hagenda] at htask'
      rcases List.mem_cons.1 htask' with rfl | htask'
      · cases htask : task' with
        | stopAll ids =>
          rw [htask] at hk hagenda
          have hids : ∀ id ∈ ids, id < s.retrievals.length :=
            hplaced.stops (.stopAll ids) (hagenda ▸ List.mem_cons_self)
          cases ids with
          | nil => cases hk
          | cons id ids =>
            have hlt : id < s.retrievals.length := hids id List.mem_cons_self
            have hid := List.getElem?_eq_getElem hlt
            have hstep : s.step = ((s.taken rest).modifyFanOut id (·.markStopped)).act id
                s.retrievals[id].discovery.stop [.stopAll ids] := by
              rw [Session.step, hagenda]
              exact stopNext_cons (s := s.taken rest) hid ids
            rcases List.mem_cons.1 hk with rfl | hk
            · rw [hstep]
              exact .inl (.of_act (s := s.taken rest) hid rfl _ _)
            · refine hlater ⟨.stopAll ids, ?_, hk⟩
              rw [hstep]
              simp [act, push]
        | _ => simp [htask, Task.stops] at hk
      · have hscripted : (s.taken rest).Scripted fun _ => True := fun _ _ _ _ _ _ => True.intro
        obtain ⟨-, tasks, hagenda', -⟩ := hexecuted.brings hscripted
        exact hlater ⟨task', hagenda' ▸ List.mem_append_right tasks htask', hk⟩

end Session

end NamedContent
