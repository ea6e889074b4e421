import NamedContent.Proofs.ExecutedSteps

/-! One retrieval of a session, as far as its Interests go: its discovery, how often the transport
holds each Interest for it, and its duties on the agenda. Whatever happens to others leaves that as
it is; what happens to the retrieval itself is one of the moves below. -/

namespace NamedContent

structure Sight where
  discovery : Discovery
  held : Interest → Nat
  duties : List Duty

namespace Sight

/-- What one step may change. In calm whatever arrives comes from the transport, and a refresh finds
no duties of the retrieval still to be done. -/
inductive Moves (calm : Prop) : Sight → Sight → Prop where
  | rests (v : Sight) : Moves calm v v
  | starts (d : Discovery) (held : Interest → Nat) (duties : List Duty) (now : Time) :
      Moves calm ⟨d, held, duties⟩
        ⟨(d.start now).1, held, (d.start now).2.map Action.duty ++ duties⟩
  | stops (d : Discovery) (held : Interest → Nat) (duties : List Duty) :
      Moves calm ⟨d, held, duties⟩ ⟨d.stop.1, held, d.stop.2.map Action.duty ++ duties⟩
  | refreshes {d : Discovery} (held : Interest → Nat) {duties : List Duty} (now : Time)
      (hclear : calm → d.isRunning = true → duties = []) :
      Moves calm ⟨d, held, duties⟩
        ⟨(d.refresh now).1, held, (d.refresh now).2.map Action.duty ++ duties⟩
  | cancels (d : Discovery) (held : Interest → Nat) (duties : List Duty) (i : Interest) :
      Moves calm ⟨d, held, .cancel i :: duties⟩ ⟨d.cancelled, fun j => held j - [i].count j, duties⟩
  | expressRefused (d : Discovery) (held : Interest → Nat) (duties : List Duty) (i : Interest) :
      Moves calm ⟨d, held, .express i :: duties⟩ ⟨d.refused i, held, duties⟩
  | expressWaits (d : Discovery) (held : Interest → Nat) (duties : List Duty) (i : Interest) :
      Moves calm ⟨d, held, .express i :: duties⟩
        ⟨d, fun j => held j + [i].count j, .settle i :: duties⟩
  | expressAnswered (d : Discovery) (held : Interest → Nat) (duties : List Duty) (i : Interest) :
      Moves calm ⟨d, held, .express i :: duties⟩ ⟨d, held, .answer i :: .settle i :: duties⟩
  | settleKeeps {d : Discovery} (held : Interest → Nat) (duties : List Duty) {i : Interest}
      (hkeep : (d.settled i).2 = .keep) :
      Moves calm ⟨d, held, .settle i :: duties⟩ ⟨(d.settled i).1, held, duties⟩
  | settleCancels {d : Discovery} (held : Interest → Nat) (duties : List Duty) {i : Interest}
      (hkeep : (d.settled i).2 ≠ .keep) :
      Moves calm ⟨d, held, .settle i :: duties⟩
        ⟨(d.settled i).1, fun j => held j - [i].count j, duties⟩
  | arrives (d : Discovery) (held : Interest → Nat) (duties : List Duty) (now : Time) (c : Content)
      (i : Interest) :
      Moves calm ⟨d, held, .answer i :: duties⟩
        ⟨(d.arrive now c i).discovery, held, (d.arrive now c i).actions.map Action.duty ++ duties⟩
  | timesOut (d : Discovery) (held : Interest → Nat) (duties : List Duty) (now : Time)
      (i : Interest) :
      Moves calm ⟨d, held, .answer i :: duties⟩
        ⟨(d.timeout now i).1, held, (d.timeout now i).2.map Action.duty ++ duties⟩
  | isAnswered (d : Discovery) {held held' : Interest → Nat} (duties : List Duty) (i : Interest)
      (hheld : ∀ j, held j = held' j + [i].count j) :
      Moves calm ⟨d, held, duties⟩ ⟨d, held', .answer i :: duties⟩
  | expires (d : Discovery) {held : Interest → Nat} (duties : List Duty) (is : List Interest)
      (hheld : ∀ j, held j = is.count j) :
      Moves calm ⟨d, held, duties⟩ ⟨d, fun _ => 0, is.map Duty.answer ++ duties⟩
  | tells (hcalm : ¬ calm) (d : Discovery) (held : Interest → Nat) (duties : List Duty)
      (is : List Interest) : Moves calm ⟨d, held, duties⟩ ⟨d, held, is.map Duty.answer ++ duties⟩

end Sight

theorem Transport.count_heldFor_express {t t' : Transport Handler} {i : Interest} {h : Handler}
    {e : Expression} (ht : t.express i h = (t', e)) (h' : Handler) (j : Interest) :
    (t'.heldFor h').count j =
      (t.heldFor h').count j + if e = .waiting ∧ h' = h then [i].count j else 0 := by
  rw [count_heldFor, count_heldFor, (express_frame ht).2.1, List.count_append]
  by_cases he : e = .waiting <;> by_cases hh : h = h' <;> by_cases hi : i = j <;>
    simp [he, hh, hi, Ne.symm]

namespace Session

def held (s : Session) (k : Nat) (j : Interest) : Nat :=
  (s.transport.heldFor (.retrieval k)).count j

def sight (s : Session) (k : Nat) (r : Retrieval) : Sight :=
  ⟨r.discovery, s.held k, duties k s.agenda⟩

variable {s s' : Session} {k id : Nat} {r r' : Retrieval} {task : Task}

section Frame

theorem modifyRetrieval_getElem? (s : Session) (id k : Nat) (f : Retrieval → Retrieval) :
    (s.modifyRetrieval id f).retrievals[k]? =
      (s.retrievals[k]?).map fun r => if id = k then f r else r := by
  rw [modifyRetrieval, List.getElem?_modify]
  rfl

theorem modifyFanOut_getElem? (s : Session) (id k : Nat) (f : FanOut → FanOut) :
    (s.modifyFanOut id f).retrievals[k]? =
      (s.retrievals[k]?).map fun r =>
        { r with fanOut := if id = k then f r.fanOut else r.fanOut } := by
  rw [modifyFanOut, modifyRetrieval_getElem?]
  congr
  funext r
  split <;> rfl

theorem modifyDiscovery_getElem? (s : Session) (id k : Nat) (f : Discovery → Discovery) :
    (s.modifyDiscovery id f).retrievals[k]? =
      (s.retrievals[k]?).map fun r =>
        { r with discovery := if id = k then f r.discovery else r.discovery } := by
  rw [modifyDiscovery, modifyRetrieval_getElem?]
  congr
  funext r
  split <;> rfl

theorem act_getElem? (s : Session) (id k : Nat) (result : Discovery × List Action)
    (after : List Task) :
    (s.act id result after).retrievals[k]? =
      (s.retrievals[k]?).map fun r =>
        { r with discovery := if id = k then result.1 else r.discovery } :=
  s.modifyDiscovery_getElem? id k fun _ => result.1

theorem markAll_getElem? (s : Session) (ids : List Nat) (k : Nat) :
    (ids.foldl (fun s id => s.modifyFanOut id (·.markStopped)) s).retrievals[k]? =
      (s.retrievals[k]?).map fun r =>
        { r with fanOut := if k ∈ ids then r.fanOut.markStopped else r.fanOut } := by
  induction ids generalizing s with
  | nil => simp
  | cons id ids ih =>
    rw [List.foldl_cons, ih, modifyFanOut_getElem?, Option.map_map]
    congr
    funext r
    by_cases hk : k ∈ ids <;> by_cases hid : id = k <;>
      simp [hk, hid, FanOut.markStopped, Ne.symm]

theorem markAll_eq (s : Session) (ids : List Nat) :
    ids.foldl (fun s id => s.modifyFanOut id (·.markStopped)) s =
      { s with
        retrievals :=
          (ids.foldl (fun s id => s.modifyFanOut id (·.markStopped)) s).retrievals } := by
  induction ids generalizing s with
  | nil => rfl
  | cons id ids ih => exact ih _

theorem closeRegistry_getElem? (s : Session) (registry : Registry) (k : Nat) :
    (s.closeRegistry registry).retrievals[k]? = (s.retrievals[k]?).map fun r =>
      { r with
        fanOut := if k ∈ registry.entries.map (·.2) then r.fanOut.markStopped else r.fanOut } := by
  have hmarked := s.markAll_getElem? (s.listed registry) k
  simp only [mem_listed] at hmarked
  exact hmarked

theorem closeRegistry_eq (s : Session) (registry : Registry) :
    s.closeRegistry registry =
      { s with
        retrievals := (s.closeRegistry registry).retrievals
        registry := some registry.clear
        agenda := .stopAll (s.listed registry) :: .answer .done :: s.agenda } := by
  rw [closeRegistry, markAll_eq]
  rfl

end Frame

/-- The task brings the retrieval `k`, which is `r`, nothing that is not from the transport, and
refreshes it only when it has no duties left. -/
def Undisturbed (s : Session) (task : Task) (k : Nat) (r : Retrieval) : Prop :=
  (∀ c, task = .command c → c.ByTransport) ∧
    (task.Refreshes → r.discovery.isRunning = true → duties k s.agenda = [])

/-- By a step that takes `task` from the agenda the retrieval `k`, which is `r`, makes a move. -/
def MovesTo (s s' : Session) (task : Task) (k : Nat) (r : Retrieval) : Prop :=
  ∃ r', s'.retrievals[k]? = some r' ∧
    Sight.Moves (s.Undisturbed task k r) ⟨r.discovery, s.held k, task.duties k ++ duties k s.agenda⟩
      (s'.sight k r')

theorem duties_call (s : Session) (k : Nat) (l : ListenerId) (e : Event)
    {after : Outcome → List Task} (hafter : ∀ outcome, ∀ task ∈ after outcome, task.Idle) :
    duties k (s.call l e after).agenda = duties k s.agenda := by
  have hsteps : ∀ steps : List Step, duties k (steps.flatMap fun step =>
      [Task.command step.command, .record step.label]) = [] := by
    intro steps
    refine duties_eq_nil fun task htask => ?_
    obtain ⟨step, -, htask⟩ := List.mem_flatMap.1 htask
    simp only [List.mem_cons, List.not_mem_nil, or_false] at htask
    rcases htask with rfl | rfl <;> rfl
  simp only [call, push, duties_append, hsteps, List.nil_append]
  rw [duties_eq_nil fun task htask => hafter _ task htask k, List.nil_append]
  rfl

theorem duties_timeoutAll (s : Session) (k n : Nat) :
    Task.duties k (.timeoutAll s.transport.expireAll.2 n) =
      (s.transport.heldFor (.retrieval k)).map Duty.answer := by
  simp [Task.duties, Transport.heldFor, Transport.expireAll, Function.comp_def]

structure Away (s : Session) (k : Nat) : Prop where
  absent : s.retrievals[k]? = none
  held : ∀ j, s.held k j = 0
  duties : duties k s.agenda = []

theorem Away.heldFor_eq_nil (h : s.Away k) : s.transport.heldFor (.retrieval k) = [] :=
  List.eq_nil_iff_forall_not_mem.2 fun j hj => List.count_eq_zero.1 (h.held j) hj

/-- By a step that takes `task` from the agenda nothing changes for the retrieval `k`, be it there
or not. -/
structure Passes (s s' : Session) (task : Task) (k : Nat) : Prop where
  discovery : (s'.retrievals[k]?).map (·.discovery) = (s.retrievals[k]?).map (·.discovery)
  held : ∀ j, s'.held k j = s.held k j
  duties : duties k s'.agenda = task.duties k ++ duties k s.agenda

namespace Passes

variable {t u : Session} {tasks : List Task}

theorem refl (h : task.duties k = []) : s.Passes s task k :=
  ⟨rfl, fun _ => rfl, by rw [h, List.nil_append]⟩

theorem of_map (h : s.Passes t task k) {f : Retrieval → Retrieval}
    (hget : u.retrievals[k]? = (t.retrievals[k]?).map f) (hf : ∀ r, (f r).discovery = r.discovery)
    (htransport : u.transport = t.transport) (hagenda : u.agenda = t.agenda) :
    s.Passes u task k := by
  refine ⟨?_, fun j => ?_, ?_⟩
  · have hsame : Retrieval.discovery ∘ f = Retrieval.discovery := funext hf
    rw [hget, Option.map_map, ← h.discovery]
    exact congrArg (Option.map · _) hsame
  · rw [Session.held, htransport]
    exact h.held j
  · rw [hagenda, h.duties]

theorem of_same (h : s.Passes t task k) (hretrievals : u.retrievals = t.retrievals)
    (htransport : u.transport = t.transport) (hagenda : u.agenda = t.agenda) : s.Passes u task k :=
  h.of_map (by rw [hretrievals, Option.map_id']) (fun _ => rfl) htransport hagenda

theorem moved (h : s.Passes t task k) {transport : Transport Handler}
    (hheld : ∀ j, (transport.heldFor (.retrieval k)).count j = t.held k j) :
    s.Passes { t with transport } task k :=
  ⟨h.discovery, fun j => (hheld j).trans (h.held j), h.duties⟩

theorem push (h : s.Passes t task k) (htasks : ∀ task ∈ tasks, task.duties k = []) :
    s.Passes (t.push tasks) task k := by
  refine ⟨h.discovery, h.held, ?_⟩
  rw [Session.push, duties_append, duties_eq_nil htasks, List.nil_append, h.duties]

theorem call (h : s.Passes t task k) (l : ListenerId) (e : Event) {after : Outcome → List Task}
    (hafter : ∀ outcome, ∀ task ∈ after outcome, task.Idle) :
    s.Passes (t.call l e after) task k :=
  ⟨h.discovery, h.held, (t.duties_call k l e hafter).trans h.duties⟩

theorem modifyFanOut (h : s.Passes t task k) (id : Nat) (f : FanOut → FanOut) :
    s.Passes (t.modifyFanOut id f) task k :=
  h.of_map (t.modifyFanOut_getElem? id k f) (fun _ => rfl) rfl rfl

theorem modifyDiscovery (h : s.Passes t task k) (hid : id ≠ k) (f : Discovery → Discovery) :
    s.Passes (t.modifyDiscovery id f) task k :=
  h.of_map (t.modifyDiscovery_getElem? id k f) (fun _ => if_neg hid) rfl rfl

theorem cancelFor (h : s.Passes t task k) (hid : id ≠ k) (i : Interest) :
    s.Passes (t.cancelFor id i) task k :=
  have hcancelled := h.moved fun j =>
    t.transport.count_heldFor_cancel_ne i (h := .retrieval id) (by simpa using Ne.symm hid) j
  hcancelled.of_same rfl rfl rfl

theorem act (h : s.Passes t task k) (hid : id ≠ k) (result : Discovery × List Action)
    {after : List Task} (hafter : ∀ task ∈ after, task.Idle) :
    s.Passes (t.act id result after) task k := by
  refine (h.modifyDiscovery hid _).push fun u hu => ?_
  rcases List.mem_cons.1 hu with rfl | hu
  · exact if_neg hid
  · exact hafter u hu k

theorem movesTo (h : s.Passes s' task k) (hr : s.retrievals[k]? = some r) :
    s.MovesTo s' task k r := by
  have hsame := h.discovery
  rw [hr, Option.map_some, Option.map_eq_some_iff] at hsame
  obtain ⟨r', hr', hd⟩ := hsame
  refine ⟨r', hr', ?_⟩
  rw [sight, hd, funext h.held, h.duties]
  exact .rests _

theorem away (h : s.Passes s' task k) (haway : s.Away k) (hnone : task.duties k = []) :
    s'.Away k := by
  refine ⟨?_, fun j => (h.held j).trans (haway.held j), ?_⟩
  · have hsame := h.discovery
    rwa [haway.absent, Option.map_none, Option.map_eq_none_iff] at hsame
  · rw [h.duties, hnone, haway.duties, List.append_nil]

end Passes

end Session

end NamedContent
