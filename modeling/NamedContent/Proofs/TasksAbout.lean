import NamedContent.Proofs.PassiveSessions
import NamedContent.Proofs.StoppedRetrievals

/-! What is done for one retrieval stays within it, if listeners take no steps: the other
retrievals, and what waits at the transport for others, are left as they are, and all that it brings
on is about the same retrieval. -/

namespace NamedContent

namespace Transport

variable {t t' : Transport Handler} {i : Interest} {id : Nat}

def others (t : Transport Handler) (id : Nat) : List (Pending Handler) :=
  t.pending.filter (·.handler != .retrieval id)

theorem others_express {r : Expression} (ht : t.express i (.retrieval id) = (t', r)) :
    t'.others id = t.others id := by
  rw [others, (express_frame ht).2.1, List.filter_append, others]
  split <;> simp

theorem others_cancel (t : Transport Handler) (i : Interest) (id : Nat) :
    (t.cancel i (.retrieval id)).others id = t.others id := by
  rw [others, cancel]
  split
  · rw [← List.erase_filter, List.erase_of_not_mem (by simp), others]
  · rfl

theorem others_eq_pending (h : ∀ p ∈ t.pending, p.handler ≠ .retrieval id) :
    t.others id = t.pending :=
  List.filter_eq_self.2 fun p hp => by simpa using h p hp

end Transport

def Task.About (id : Nat) : Task → Prop
  | .answer _ => True
  | .perform j _ _ => j = id
  | .settle j _ => j = id
  | .arrive h _ _ => h = .retrieval id
  | .timeout h _ => h = .retrieval id
  | .handOver j _ _ => j = id
  | .fanOut j _ _ _ => j = id
  | .countFailure j => j = id
  | _ => False

theorem Registry.erase_insert {registry : Registry} {n : Name}
    (hnew : registry.find? n = none) (id : Nat) :
    (registry.insert n id).erase n = registry := by
  have hkeep : registry.entries.filter (·.1 != n) = registry.entries := by
    refine List.filter_eq_self.2 fun entry hentry => ?_
    simp only [Registry.find?, Option.map_eq_none_iff, List.find?_eq_none] at hnew
    simpa using hnew entry hentry
  simp [Registry.erase, Registry.insert, hkeep]

theorem Registry.find?_insert_self {registry : Registry} {n : Name}
    (hnew : registry.find? n = none) (id : Nat) :
    (registry.insert n id).find? n = some id := by
  simp only [Registry.find?, Option.map_eq_none_iff] at hnew
  simp [Registry.find?, Registry.insert, hnew]

namespace Session

variable {s s' : Session} {task : Task} {id : Nat}

structure Beside (id : Nat) (s s' : Session) : Prop where
  retrievals : ∀ k, k ≠ id → s'.retrievals[k]? = s.retrievals[k]?
  others : s'.transport.others id = s.transport.others id

theorem getElem?_of_ne {g : Retrieval → Retrieval} {k : Nat}
    (hretrievals : s'.retrievals = s.retrievals.modify id g) (hk : k ≠ id) :
    s'.retrievals[k]? = s.retrievals[k]? := by
  rw [hretrievals, List.getElem?_modify]
  simp [Ne.symm hk]

theorem Beside.of_modify {g : Retrieval → Retrieval}
    (hretrievals : s'.retrievals = s.retrievals.modify id g)
    (hothers : s'.transport.others id = s.transport.others id) : s.Beside id s' :=
  ⟨fun _ hk => getElem?_of_ne hretrievals hk, hothers⟩

/-- A task about one retrieval leaves the others alone, and brings on tasks about that one. -/
theorem Executed.about (h : Executed s task s') (habout : task.About id)
    (hsilent : s.Scripted fun _ => False) :
    s.Beside id s' ∧ ∃ tasks, s'.agenda = tasks ++ s.agenda ∧ ∀ t ∈ tasks, t.About id := by
  have hsame : ∀ {s' : Session}, s'.retrievals = s.retrievals → s'.transport = s.transport →
      s.Beside id s' := fun hretrievals htransport =>
    ⟨fun _ _ => by rw [hretrievals], by rw [htransport]⟩
  cases h with
  | replies | records | expired => exact ⟨hsame rfl rfl, [], rfl, by simp⟩
  | commands | asks | expires | starts | dropsOwner | registers | closes | keeps =>
    exact False.elim habout
  | refreshesOnce | stopsNext | refreshes | timesOutNext => exact False.elim habout
  | publishes htask | publishAnswers htask => cases htask <;> exact False.elim habout
  | stops htends | tends a htends =>
    cases task <;> first | exact False.elim htends | exact False.elim habout
  | callsBack l htask =>
    rw [call_of_silent hsilent]
    exact ⟨hsame rfl rfl, [], rfl, by simp⟩
  | cancels j i rest =>
    obtain rfl : j = id := habout
    exact ⟨.of_modify rfl (Transport.others_cancel _ i j), [_], rfl, by simp [Task.About]⟩
  | @expressRefused j i rest anyRefused t' ht =>
    obtain rfl : j = id := habout
    exact ⟨.of_modify rfl (Transport.others_express ht), [_], rfl, by simp [Task.About]⟩
  | @expressWaits j i rest anyRefused t' ht =>
    obtain rfl : j = id := habout
    exact ⟨⟨fun _ _ => rfl, Transport.others_express ht⟩, [_, _], rfl, by simp [Task.About]⟩
  | @expressAnswered j i rest anyRefused t' c ht =>
    obtain rfl : j = id := habout
    exact ⟨⟨fun _ _ => rfl, Transport.others_express ht⟩, [_, _, _], rfl, by simp [Task.About]⟩
  | @settleKeeps j i r hr =>
    obtain rfl : j = id := habout
    exact ⟨.of_modify rfl rfl, [], rfl, by simp⟩
  | @settleCancels j i r hr =>
    obtain rfl : j = id := habout
    exact ⟨.of_modify rfl (Transport.others_cancel _ i j), [], rfl, by simp⟩
  | @arrives j r c i hr =>
    obtain rfl : j = id := Handler.retrieval.inj habout
    refine ⟨.of_modify rfl rfl, _, rfl, ?_⟩
    split <;> simp [Task.About]
  | @timesOut j r i hr =>
    obtain rfl : j = id := Handler.retrieval.inj habout
    exact ⟨.of_modify rfl rfl, [_], rfl, by simp [Task.About]⟩
  | handsTo =>
    rw [call_of_silent hsilent]
    exact ⟨hsame rfl rfl, [], rfl, by simp⟩
  | @handsOver j =>
    obtain rfl : j = id := habout
    refine ⟨hsame rfl rfl, _, rfl, ?_⟩
    split <;> simp [Task.About]
  | @fansOut j =>
    obtain rfl : j = id := habout
    rw [call_of_silent hsilent]
    refine ⟨hsame rfl rfl, _, rfl, ?_⟩
    split <;> simp [Task.About]
  | skips j =>
    obtain rfl : j = id := habout
    exact ⟨hsame rfl rfl, [_], rfl, by simp [Task.About]⟩
  | countsFailure j =>
    obtain rfl : j = id := habout
    exact ⟨.of_modify rfl rfl, [], rfl, by simp⟩

def Owns (s₀ : Session) (task : Task) : Prop :=
  task.About s₀.retrievals.length ∧ task.Mild s₀.transport.store

variable {s₀ : Session} {registry : Registry} {n : Name} {l : ListenerId} {tasks rest : List Task}

/-- The retrieval that is made next, while nothing else is touched. -/
structure During (s₀ s : Session) : Prop where
  lawful : s.Lawful
  silent : s.Scripted fun _ => False
  store : s.transport.store = s₀.transport.store
  kept : s.kept = s₀.kept
  beside : s₀.Beside s₀.retrievals.length s

theorem Beside.trans {s'' : Session} (h : s.Beside id s') (h' : s'.Beside id s'') :
    s.Beside id s'' :=
  ⟨fun k hk => (h'.retrievals k hk).trans (h.retrievals k hk), h'.others.trans h.others⟩

theorem During.step (h : During s₀ s) (hagenda : s.agenda = task :: rest) (hown : s₀.Owns task) :
    During s₀ s.step ∧ s.step.registry = s.registry ∧
      s.step.retrievals.map (·.standing) = s.retrievals.map (·.standing) ∧
      ∃ tasks, s.step.agenda = tasks ++ rest ∧ ∀ t ∈ tasks, s₀.Owns t := by
  have hexecuted := step_executed hagenda
  have hlawful : (s.taken rest).Lawful := ⟨h.lawful.retrievals, h.lawful.registry⟩
  have hsilent : (s.taken rest).Scripted fun _ => False := h.silent
  have hmild : task.Mild (s.taken rest).transport.store := h.store ▸ hown.2
  obtain ⟨hleaves, tasks, hagenda', htasks⟩ :=
    hexecuted.mild hmild (fun l _ => hsilent.mute l) hlawful
  obtain ⟨hbeside, tasks', hagenda'', habout⟩ := hexecuted.about hown.1 hsilent
  obtain rfl : tasks' = tasks := List.append_cancel_right (hagenda''.symm.trans hagenda')
  refine ⟨⟨h.lawful.step, ?_, hleaves.store.trans h.store, hleaves.kept.trans h.kept,
    h.beside.trans ⟨hbeside.retrievals, hbeside.others⟩⟩, hleaves.registry, hleaves.standings,
    tasks', hagenda', fun t ht => ⟨habout t ht, h.store ▸ htasks t ht⟩⟩
  rw [Scripted, hleaves.scripts]
  exact h.silent

theorem During.step_within {pre : List Task} (h : During s₀ s)
    (hagenda : s.agenda = task :: pre ++ rest) (hown : ∀ t ∈ task :: pre, s₀.Owns t) :
    During s₀ s.step ∧ s.step.registry = s.registry ∧
      s.step.retrievals.map (·.standing) = s.retrievals.map (·.standing) ∧
      ∃ pre, s.step.agenda = pre ++ rest ∧ ∀ t ∈ pre, s₀.Owns t := by
  obtain ⟨htask, hpre⟩ := List.forall_mem_cons.1 hown
  obtain ⟨hduring, hregistry, hstandings, tasks, hagenda', htasks⟩ := h.step hagenda htask
  exact ⟨hduring, hregistry, hstandings, tasks ++ pre,
    hagenda'.trans (List.append_assoc tasks pre rest).symm, List.forall_mem_append.2 ⟨htasks, hpre⟩⟩

end Session

end NamedContent
