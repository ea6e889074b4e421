import NamedContent.Proofs.DriftingRetrievals

/-! What a refresh leaves of a retrieval that runs, if those who follow it take no steps when they
are called and nothing is refused meanwhile. Each of its slots waits for an answer at the transport,
or else it has had one that it can do nothing with. Asked again, the transport would answer with
that again, and so such a slot is left idle until the next refresh. No such content answers if two
components at least are to follow the base name, and then all slots wait. -/

namespace NamedContent.Session

open Discovery (Move Asking)

variable {s s' : Session} {task : Task} {rest : List Task} {k id : Nat} {r : Retrieval}
  {ls : List ListenerId}

/-- Something has been refused, or what has become of the discovery `d` still runs and asks. -/
def Attends (k : Nat) (d : Discovery) (s : Session) : Prop :=
  .refused ∈ s.log ∨ ∃ r, s.retrievals[k]? = some r ∧ d.SameTask r.discovery ∧
    r.discovery.isRunning = true ∧ r.discovery.Asking s.transport.store

structure Heeds (k : Nat) (ls : List ListenerId) (s : Session) : Prop where
  lawful : s.Lawful
  followed : ∃ r, s.retrievals[k]? = some r ∧ r.followers = ls
  mute : ∀ l ∈ ls, s.Mute l
  mild : ∀ task ∈ s.agenda, task.Mild s.transport.store
  feeds : ∀ task ∈ s.agenda, task.Feeds k ls

theorem Heeds.mute_of_mayCall (h : s.Heeds k ls) {task : Task} {rest : List Task}
    (hagenda : s.agenda = task :: rest) (l : ListenerId)
    (hl : (s.taken rest).MayCall task l) : (s.taken rest).Mute l := by
  obtain ⟨r, hr, rfl⟩ := h.followed
  have hfeeds : task.Feeds k r.followers := h.feeds task (hagenda ▸ List.mem_cons_self)
  exact h.mute l (mem_of_mayCall (s := s.taken rest) hfeeds hr hl)

theorem Heeds.feeds_step (h : s.Heeds k ls) : ∀ task ∈ s.step.agenda, task.Feeds k ls := by
  cases hagenda : s.agenda with
  | nil =>
    rw [step_of_nil hagenda]
    exact h.feeds
  | cons task rest =>
    have hfeeds : ∀ t ∈ task :: rest, t.Feeds k ls := hagenda ▸ h.feeds
    obtain ⟨r, hr, hfollowers⟩ := h.followed
    obtain ⟨tasks, hagenda', htasks⟩ := (step_executed hagenda).feeds
      (hfeeds task List.mem_cons_self) hr hfollowers (h.mute_of_mayCall hagenda)
    rw [hagenda']
    intro t ht
    rw [List.mem_append] at ht
    exact ht.elim (htasks t) fun ht => hfeeds t (List.mem_cons_of_mem task ht)

theorem Heeds.step (h : s.Heeds k ls) : s.LeavesAlone s.step ∧ s.step.Heeds k ls := by
  obtain ⟨hleaves, hmild⟩ := mild_step h.lawful h.mild h.mute_of_mayCall
  refine ⟨hleaves, h.lawful.step, ?_, fun l hl => ?_, hmild, h.feeds_step⟩
  · obtain ⟨r, hr, hfollowers⟩ := h.followed
    obtain ⟨r', hr', hstanding⟩ := hleaves.getElem? hr
    exact ⟨r', hr', (Retrieval.followers_of_standing hstanding).trans hfollowers⟩
  · rw [Mute, script, hleaves.scripts]
    exact h.mute l hl

theorem Heeds.finish_ends (h : s.Heeds k ls) : ∃ fuel, (s.finish fuel).agenda = [] := by
  obtain ⟨reach, hfew⟩ := s.exists_reach
  refine finish_ends_of_less (reach + 1) (K := fun s => s.Heeds k ls ∧
    ∀ r ∈ s.retrievals, r.fanOut.listeners.length ≤ reach + 1)
    ⟨h, fun r hr => (hfew r hr).trans (Nat.le_succ reach)⟩ ?_
  rintro s task rest ⟨hs, hfew⟩ hagenda
  have hmild : task.Mild (s.taken rest).transport.store :=
    hs.mild task (hagenda ▸ List.mem_cons_self)
  refine ⟨⟨hs.step.2, fun r' hr' => ?_⟩, (step_executed hagenda).lessens (.inl hmild)
    (hs.mute_of_mayCall hagenda) (hs.lawful.of_eq rfl rfl) (Nat.succ_pos reach) hfew⟩
  obtain ⟨r, hr, hsublist⟩ := hs.step.1.exists_mem hr'
  exact hsublist.length_le.trans (hfew r hr)

theorem Attends.step {d : Discovery} (h : s.Attends k d) (hheeds : s.Heeds k ls) :
    s.step.Attends k d := by
  rcases h with hrefused | ⟨r, hr, hsame, hrun, hasking⟩
  · exact .inl (s.log_subset_step hrefused)
  cases hagenda : s.agenda with
  | nil =>
    rw [step_of_nil hagenda]
    exact .inr ⟨r, hr, hsame, hrun, hasking⟩
  | cons task rest =>
    have hmild : task.Mild s.transport.store := hheeds.mild task (hagenda ▸ List.mem_cons_self)
    have hsound := hheeds.lawful.sound hr
    refine ((step_executed hagenda).drifts hmild hr).imp_right ?_
    rintro ⟨r', hr', hdrifts⟩
    refine ⟨r', hr', ?_⟩
    rw [hheeds.step.1.store]
    rcases hdrifts with hd | ⟨m, hm, hd⟩
    · rw [hd]
      exact ⟨hsame, hrun, hasking⟩
    · obtain ⟨hsame', hphase⟩ := hm.frame hsound
      rw [hd, Discovery.isRunning, hphase]
      exact ⟨hsame.trans hsame', hrun, hasking.move hsound hm⟩

theorem Attends.finish {d : Discovery} (h : s.Attends k d) (hheeds : s.Heeds k ls) (fuel : Nat) :
    (s.finish fuel).transport.store = s.transport.store ∧ (s.finish fuel).Attends k d :=
  (finish_induction (K := fun s' => s'.Heeds k ls ∧ s'.transport.store = s.transport.store ∧
      s'.Attends k d)
    (fun hkept => ⟨hkept.1.step.2, hkept.1.step.1.store.trans hkept.2.1,
      hkept.2.2.step hkept.1⟩) ⟨hheeds, rfl, h⟩ fuel).2

section Refresh

variable {P : Command → Prop} {start : Session} {target : Target}

end Refresh

section Samples

end Samples

end NamedContent.Session
