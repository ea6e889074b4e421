import NamedContent.Proofs.PassiveProgress

/-! Why every call returns in a session of any retrievals whose listeners take no steps. Its tasks
leave what is held as it is, and unless they stop retrievals they leave alone who follows which; so
those that are called stay few, and each step leaves less to do. -/

namespace NamedContent

/-- What a retrieval is for, who follows it, and whether it runs. -/
structure Standing where
  basename : Name
  owner : Owner
  listeners : List ListenerId
  fanOut : Phase
  discovery : Phase

def Standing.running (n : Name) (ls : List ListenerId) : Standing where
  basename := n
  owner := .fanOut
  listeners := ls
  fanOut := .running
  discovery := .running

def Retrieval.standing (r : Retrieval) : Standing where
  basename := r.discovery.basename
  owner := r.owner
  listeners := r.fanOut.listeners
  fanOut := r.fanOut.phase
  discovery := r.discovery.phase

theorem Retrieval.standing_of_discovery {r : Retrieval} {d : Discovery}
    (h : Discovery.SameTask r.discovery d ∧ d.phase = r.discovery.phase) :
    ({ r with discovery := d } : Retrieval).standing = r.standing := by
  simp [standing, h.1.basename, h.2]

namespace Session

variable {reach : Nat} {s s' : Session} {task : Task} {id : Nat} {g : Retrieval → Retrieval}

/-- Registrations are left alone, and so is what is held. -/
structure LeavesAlone (s s' : Session) : Prop where
  store : s'.transport.store = s.transport.store
  scripts : s'.scripts = s.scripts
  registry : s'.registry = s.registry
  kept : s'.kept = s.kept
  standings : s'.retrievals.map (·.standing) = s.retrievals.map (·.standing)

theorem LeavesAlone.of_modify (hretrievals : s'.retrievals = s.retrievals.modify id g)
    (hg : ∀ r, s.retrievals[id]? = some r → (g r).standing = r.standing)
    (hstore : s'.transport.store = s.transport.store) (hscripts : s'.scripts = s.scripts)
    (hregistry : s'.registry = s.registry) (hkept : s'.kept = s.kept) : s.LeavesAlone s' :=
  ⟨hstore, hscripts, hregistry, hkept, by rw [hretrievals, map_modify_of_eq hg]⟩

theorem LeavesAlone.refl (s : Session) : s.LeavesAlone s := ⟨rfl, rfl, rfl, rfl, rfl⟩

theorem LeavesAlone.trans {s'' : Session} (h : s.LeavesAlone s') (h' : s'.LeavesAlone s'') :
    s.LeavesAlone s'' :=
  ⟨h'.store.trans h.store, h'.scripts.trans h.scripts, h'.registry.trans h.registry,
    h'.kept.trans h.kept, h'.standings.trans h.standings⟩

theorem LeavesAlone.getElem? (h : s.LeavesAlone s') {r : Retrieval}
    (hr : s.retrievals[id]? = some r) :
    ∃ r', s'.retrievals[id]? = some r' ∧ r'.standing = r.standing := by
  have hget := congrArg (·[id]?) h.standings
  simp only [List.getElem?_map, hr, Option.map_some] at hget
  exact Option.map_eq_some_iff.1 hget

theorem Executed.mild (h : Executed s task s') (hmild : task.Mild s.transport.store)
    (hmute : ∀ l, s.MayCall task l → s.Mute l) (hlawful : s.Lawful) :
    s.LeavesAlone s' ∧ ∃ tasks, s'.agenda = tasks ++ s.agenda ∧
      ∀ t ∈ tasks, t.Mild s.transport.store := by
  have hsame : ∀ {id : Nat} {r r' : Retrieval} {d : Discovery}, s.retrievals[id]? = some r →
      Discovery.SameTask r.discovery d ∧ d.phase = r.discovery.phase →
      s.retrievals[id]? = some r' → ({ r' with discovery := d } : Retrieval).standing =
        r'.standing := by
    rintro id r r' d hr hd hr'
    obtain rfl : r = r' := Option.some.inj (hr.symm.trans hr')
    exact Retrieval.standing_of_discovery hd
  have hcall : ∀ {l : ListenerId} {e : Event}, s.MayCall task l →
      s.LeavesAlone (s.call l e fun _ => []) ∧
      ∃ tasks, (s.call l e fun _ => []).agenda = tasks ++ s.agenda ∧
        ∀ t ∈ tasks, t.Mild s.transport.store := by
    intro l e hl
    rw [(hmute l hl).call_eq]
    exact ⟨⟨rfl, rfl, rfl, rfl, rfl⟩, [], rfl, by simp⟩
  cases h with
  | replies | records | expired => exact ⟨⟨rfl, rfl, rfl, rfl, rfl⟩, [], rfl, by simp⟩
  | commands | asks | expires | starts | dropsOwner | registers | closes | keeps =>
    exact False.elim hmild
  | refreshesOnce | stopsNext => exact False.elim hmild
  | publishes htask | publishAnswers htask => exact absurd htask hmild.not_publishes
  | stops htends | tends a htends => exact absurd htends hmild.not_tends
  | timesOutNext p ps n => exact ⟨⟨rfl, rfl, rfl, rfl, rfl⟩, [_, _], rfl, by simp [Task.Mild]⟩
  | callsBack l htask => exact hcall (mayCall_of_callsBack htask l)
  | handsTo c i hr _ howner => exact hcall ⟨_, hr, howner⟩
  | cancels id i rest =>
    refine ⟨.of_modify rfl (fun r _ => ?_) (s.transport.cancel_frame i _).1 rfl rfl rfl, [_], rfl,
      by simp [Task.Mild]⟩
    exact Retrieval.standing_of_discovery ⟨⟨rfl, rfl, rfl, rfl⟩, rfl⟩
  | @expressRefused id i rest anyRefused t' ht =>
    refine ⟨.of_modify rfl (fun r _ => ?_) (Transport.express_frame ht).1 rfl rfl rfl, [_], rfl,
      by simp [Task.Mild]⟩
    exact Retrieval.standing_of_discovery (r.discovery.refused_frame i)
  | expressWaits rest anyRefused ht =>
    exact ⟨⟨(Transport.express_frame ht).1, rfl, rfl, rfl, rfl⟩, [_, _], rfl, by simp [Task.Mild]⟩
  | @expressAnswered id i rest anyRefused t' c ht =>
    obtain ⟨hstore, -, hanswer⟩ := Transport.express_frame ht
    refine ⟨⟨hstore, rfl, rfl, rfl, rfl⟩, [.arrive (.retrieval id) c i, _, _], rfl, ?_⟩
    simpa [Task.Mild] using hanswer c rfl
  | @settleKeeps id i r hr =>
    exact ⟨.of_modify rfl (fun r' => hsame hr (r.discovery.settled_frame i)) rfl rfl rfl rfl, [],
      rfl, by simp⟩
  | @settleCancels id i r hr =>
    exact ⟨.of_modify rfl (fun r' => hsame hr (r.discovery.settled_frame i))
      (s.transport.cancel_frame i _).1 rfl rfl rfl, [], rfl, by simp⟩
  | @arrives id r c i hr =>
    refine ⟨.of_modify rfl (fun r' => hsame hr (Discovery.arrive_frame (hlawful.sound hr))) rfl rfl
      rfl rfl, _, rfl, ?_⟩
    split <;> simp [Task.Mild]
  | timesOut i hr =>
    exact ⟨.of_modify rfl (fun r' => hsame hr Discovery.timeout_frame) rfl rfl rfl
      rfl, [_], rfl, by simp [Task.Mild]⟩
  | handsOver =>
    refine ⟨⟨rfl, rfl, rfl, rfl, rfl⟩, _, rfl, ?_⟩
    split <;> simp [Task.Mild]
  | fansOut l =>
    rw [(hmute l List.mem_cons_self).call_eq]
    refine ⟨⟨rfl, rfl, rfl, rfl, rfl⟩, _, rfl, ?_⟩
    split <;> simp [Task.Mild]
  | skips => exact ⟨⟨rfl, rfl, rfl, rfl, rfl⟩, [_], rfl, by simp [Task.Mild]⟩
  | countsFailure id =>
    exact ⟨.of_modify rfl (fun r _ => rfl) rfl rfl rfl rfl, [], rfl, by simp⟩
  | @refreshes id r ids now reissued n hr =>
    exact ⟨.of_modify rfl (fun r' => hsame hr (r.discovery.refresh_frame now)) rfl rfl rfl rfl,
      [_, _], rfl, by simp [Task.Mild]⟩

theorem mild_step (hlawful : s.Lawful) (hmild : ∀ task ∈ s.agenda, task.Mild s.transport.store)
    (hmute : ∀ {task rest}, s.agenda = task :: rest →
      ∀ l, (s.taken rest).MayCall task l → (s.taken rest).Mute l) :
    s.LeavesAlone s.step ∧ ∀ task ∈ s.step.agenda, task.Mild s.step.transport.store := by
  cases hagenda : s.agenda with
  | nil =>
    rw [step_of_nil hagenda]
    exact ⟨.refl s, hmild⟩
  | cons task rest =>
    rw [hagenda] at hmild
    obtain ⟨hleaves, tasks, hagenda', htasks⟩ :=
      (step_executed hagenda).mild (hmild task List.mem_cons_self) (hmute hagenda)
        (hlawful.of_eq rfl rfl)
    have hleaves' : s.LeavesAlone s.step :=
      ⟨hleaves.store, hleaves.scripts, hleaves.registry, hleaves.kept, hleaves.standings⟩
    refine ⟨hleaves', fun t ht => ?_⟩
    rw [hleaves'.store]
    rw [hagenda', List.mem_append] at ht
    exact ht.elim (htasks t) fun ht => hmild t (List.mem_cons_of_mem task ht)

theorem exists_mem_of_modify (hretrievals : s'.retrievals = s.retrievals.modify id g)
    (hg : ∀ r, (g r).fanOut.listeners.Sublist r.fanOut.listeners) {r' : Retrieval}
    (hr' : r' ∈ s'.retrievals) :
    ∃ r ∈ s.retrievals, r'.fanOut.listeners.Sublist r.fanOut.listeners := by
  obtain ⟨k, hk⟩ := List.mem_iff_getElem?.1 hr'
  rw [hretrievals, List.getElem?_modify] at hk
  obtain ⟨r, hr, rfl⟩ := Option.map_eq_some_iff.1 hk
  refine ⟨r, List.mem_of_getElem? hr, ?_⟩
  split
  · exact hg r
  · exact .refl _

theorem exists_mem_of_act {f : FanOut → FanOut}
    (hf : ∀ g : FanOut, (f g).listeners.Sublist g.listeners) {registry : Option Registry}
    {result : Discovery × List Action} {after : List Task} {r' : Retrieval}
    (hr' : r' ∈
      ((({ s with registry } : Session).modifyFanOut id f).act id result after).retrievals) :
    ∃ r ∈ s.retrievals, r'.fanOut.listeners.Sublist r.fanOut.listeners := by
  obtain ⟨r₁, hr₁, hsublist⟩ := exists_mem_of_modify (s := s.modifyFanOut id f)
    (g := fun r => { r with discovery := result.1 }) rfl (fun _ => .refl _) hr'
  obtain ⟨r₂, hr₂, hsublist'⟩ := exists_mem_of_modify (s := s)
    (g := fun r => { r with fanOut := f r.fanOut }) rfl (fun r => hf r.fanOut) hr₁
  exact ⟨r₂, hr₂, hsublist.trans hsublist'⟩

theorem LeavesAlone.exists_mem (h : s.LeavesAlone s') {r' : Retrieval} (hr' : r' ∈ s'.retrievals) :
    ∃ r ∈ s.retrievals, r'.fanOut.listeners.Sublist r.fanOut.listeners := by
  have hmem : r'.standing ∈ s.retrievals.map (·.standing) := by
    rw [← h.standings]
    exact List.mem_map_of_mem hr'
  obtain ⟨r, hr, heq⟩ := List.mem_map.1 hmem
  refine ⟨r, hr, ?_⟩
  rw [show r'.fanOut.listeners = r.fanOut.listeners from congrArg Standing.listeners heq.symm]

theorem Executed.passive (h : Executed s task s') (hpassive : task.Passive s.transport.store)
    (hsilent : s.Scripted fun _ => False) (hlawful : s.Lawful) :
    s'.transport.store = s.transport.store ∧ s'.scripts = s.scripts ∧
      (∃ tasks, s'.agenda = tasks ++ s.agenda ∧ ∀ t ∈ tasks, t.Passive s.transport.store) ∧
      ∀ r' ∈ s'.retrievals, ∃ r ∈ s.retrievals,
        r'.fanOut.listeners.Sublist r.fanOut.listeners := by
  rcases hpassive with hmild | hother
  · obtain ⟨hleaves, tasks, hagenda, htasks⟩ := h.mild hmild (fun l _ => hsilent.mute l) hlawful
    exact ⟨hleaves.store, hleaves.scripts, ⟨tasks, hagenda, fun t ht => .inl (htasks t ht)⟩,
      fun r' hr' => hleaves.exists_mem hr'⟩
  · have hpassive : task.Passive s.transport.store := .inr hother
    have hcommand : task.command? = none := by
      rcases hother with ⟨ids, rfl⟩ | ⟨n, l, rfl⟩ <;> rfl
    cases h with
    | replies => exact ⟨rfl, rfl, ⟨[], rfl, by simp⟩, fun r' hr' => ⟨r', hr', .refl _⟩⟩
    | stops _ hr hf _ hkeeps a hleave =>
      exact ⟨rfl, rfl, ⟨[_, _], rfl, by simp [Task.Passive, Task.Mild]⟩,
        fun r' => exists_mem_of_act (hleave hcommand)⟩
    | stopsNext ids hr =>
      exact ⟨rfl, rfl, ⟨[_, _], rfl, by simp [Task.Passive, Task.Mild]⟩,
        fun r' => exists_mem_of_act (f := (·.markStopped)) fun _ => .refl _⟩
    | tends a htends hf _ hleave =>
      refine ⟨rfl, rfl, ⟨[], rfl, by simp⟩, fun r' hr' => ?_⟩
      exact exists_mem_of_modify rfl (fun r => hleave hcommand r.fanOut) hr'
    | publishes htask | publishAnswers htask => exact absurd htask hpassive.not_publishes
    | callsBack _ htask =>
      rcases hother with ⟨ids, rfl⟩ | ⟨n, l, rfl⟩ <;> exact False.elim htask
    | _ => simp at hother

/-- Of a session whose listeners take no steps: within a call of one command that does not publish
several contents. -/
structure Passive (reach : Nat) (s : Session) : Prop where
  lawful : s.Lawful
  silent : s.Scripted fun _ => False
  tasks : ∀ task ∈ s.agenda, task.Passive s.transport.store
  few : ∀ r ∈ s.retrievals, r.fanOut.listeners.length ≤ reach

theorem Passive.step (h : s.Passive reach) : s.step.Passive reach := by
  cases hagenda : s.agenda with
  | nil => rwa [step_of_nil hagenda]
  | cons task rest =>
    have htasks : ∀ t ∈ task :: rest, t.Passive s.transport.store := hagenda ▸ h.tasks
    have hlawful : (s.taken rest).Lawful := ⟨h.lawful.retrievals, h.lawful.registry⟩
    have hsilent : (s.taken rest).Scripted fun _ => False := h.silent
    have htask : task.Passive (s.taken rest).transport.store := htasks task List.mem_cons_self
    obtain ⟨hstore, hscripts, ⟨tasks, hagenda', htasks'⟩, hfew⟩ :=
      (step_executed hagenda).passive htask hsilent hlawful
    refine ⟨h.lawful.step, ?_, fun t ht => ?_, fun r' hr' => ?_⟩
    · rw [Scripted, hscripts]
      exact hsilent
    · rw [hstore]
      rw [hagenda', List.mem_append] at ht
      exact ht.elim (htasks' t) fun ht => htasks t (List.mem_cons_of_mem task ht)
    · obtain ⟨r, hr, hsublist⟩ := hfew r' hr'
      exact hsublist.length_le.trans (h.few r hr)

theorem finish_ends_of_less (reach : Nat) {K : Session → Prop} (h : K s)
    (hstep : ∀ {s task rest}, K s → s.agenda = task :: rest →
      K s.step ∧ Precedes (s.step.remains reach s.step.agenda) (s.remains reach (task :: rest))) :
    ∃ fuel, (s.finish fuel).agenda = [] := by
  refine Session.finish_ends (P := fun s (_ : Unit) => K s) (a := ())
    (f := fun s _ => s.remains reach s.agenda) precedes_wellFounded ?_ h
  intro s _ hs hagenda
  obtain ⟨task, rest, hagenda⟩ := List.exists_cons_of_ne_nil hagenda
  obtain ⟨hkept, hless⟩ := hstep hs hagenda
  refine ⟨(), hkept, ?_⟩
  rw [hagenda]
  exact hless

theorem Passive.finish_ends (h : s.Passive reach) : ∃ fuel, (s.finish fuel).agenda = [] := by
  have hreach : s.Passive (reach + 1) :=
    ⟨h.lawful, h.silent, h.tasks, fun r hr => (h.few r hr).trans (Nat.le_succ reach)⟩
  refine finish_ends_of_less (reach + 1) (K := fun s => s.Passive (reach + 1)) hreach ?_
  intro s task rest hs hagenda
  have htask : task.Passive (s.taken rest).transport.store :=
    hs.tasks task (hagenda ▸ List.mem_cons_self)
  have hsilent : (s.taken rest).Scripted fun _ => False := hs.silent
  exact ⟨hs.step, (step_executed hagenda).lessens htask (fun l _ => hsilent.mute l)
    (hs.lawful.of_eq rfl rfl) (Nat.succ_pos reach) hs.few⟩

theorem exists_reach (s : Session) :
    ∃ reach, ∀ r ∈ s.retrievals, r.fanOut.listeners.length ≤ reach := by
  induction s.retrievals with
  | nil => exact ⟨0, by simp⟩
  | cons r rs ih =>
    obtain ⟨reach, hfew⟩ := ih
    refine ⟨r.fanOut.listeners.length + reach, List.forall_mem_cons.2 ⟨by omega, fun r' hr' => ?_⟩⟩
    have hle := hfew r' hr'
    omega

def called (s : Session) (c : Command) : Session := { s with agenda := [.command c], log := [] }

theorem give_eq_finish {c : Command} {fuel : Nat} (h : (s.give fuel c).agenda = []) :
    ∃ fuel', s.give fuel c = (s.called c).step.finish fuel' := by
  cases fuel with
  | zero => cases h
  | succ fuel => exact ⟨fuel, rfl⟩

theorem give_ends {c : Command} (hlawful : s.Lawful)
    (hsilent : (s.called c).step.Scripted fun _ => False)
    (htasks : ∀ task ∈ (s.called c).step.agenda,
      task.Passive (s.called c).step.transport.store) : ∃ fuel, (s.give fuel c).agenda = [] := by
  obtain ⟨reach, hfew⟩ := (s.called c).step.exists_reach
  have hcalled : (s.called c).Lawful := ⟨hlawful.retrievals, hlawful.registry⟩
  have hpassive : (s.called c).step.Passive reach := ⟨hcalled.step, hsilent, htasks, hfew⟩
  obtain ⟨fuel, hdone⟩ := hpassive.finish_ends
  exact ⟨fuel + 1, hdone⟩

end Session

end NamedContent
