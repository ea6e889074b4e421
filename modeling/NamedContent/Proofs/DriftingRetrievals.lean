import NamedContent.Proofs.BackedSessions
import NamedContent.Proofs.PassiveSessions

/-! What happens to a retrieval while it is refreshed, if those who follow it take no steps and
nothing is refused: each of its slots goes on asking, but for one that has been answered by content
whose name has nothing after the base name, with which it can do nothing. -/

namespace NamedContent

namespace Discovery

variable {d d' : Discovery} {s : Slot} {c : Content} {store : List Content} {m : Move}

/-- The content answers the Interest of the slot's partition, and nothing follows the base name in
its name. -/
def Ends (d : Discovery) (s : Slot) (c : Content) : Prop :=
  c.name.component? d.basename.length = none ∧
    ∃ i, s.partition.interest d.basename d.config = .ok i ∧ i.accepts .exactKey c = true

theorem SameTask.ends_iff (h : SameTask d d') : d'.Ends s c ↔ d.Ends s c := by
  rw [Ends, h.basename, h.config, Ends]

/-- A slot asks for something, unless content that is held ends at the base name. -/
def Asking (store : List Content) (d : Discovery) : Prop :=
  ∀ s ∈ d.slots, s.outstanding = none → ∃ c ∈ store, d.Ends s c

/-- Neither a start nor a stop nor a refusal; and what arrives is held, and answers the
Interest. -/
def Move.Gentle (store : List Content) : Move → Prop
  | .start _ => False
  | .stop => False
  | .refused _ => False
  | .arrive _ c i => c ∈ store ∧ i.accepts .exactKey c = true
  | _ => True

theorem Move.Gentle.frame (hm : m.Gentle store) (h : d.Sound) :
    SameTask d (m.apply d) ∧ (m.apply d).phase = d.phase := by
  cases m with
  | start | stop | refused => exact False.elim hm
  | refresh now => exact d.refresh_frame now
  | timeout now i => exact timeout_frame
  | arrive now c i => exact arrive_frame h
  | settled i => exact d.settled_frame i
  | cancelled => exact ⟨⟨rfl, rfl, rfl, rfl⟩, rfl⟩

theorem Move.Gentle.slots (hm : m.Gentle store) (h : d.Sound) {t : Slot}
    (ht : t ∈ (m.apply d).slots) :
    t ∈ d.slots ∨ t.Live d.basename d.config ∨ ∃ c ∈ store, d.Ends t c := by
  have hparts := h.slots_partition
  cases m with
  | start | stop | refused => exact False.elim hm
  | refresh now =>
    by_cases hrun : d.isRunning = true
    · exact .inr (.inl (hparts.refreshed now hrun t ht))
    · rw [apply, Discovery.refresh, if_neg hrun] at ht
      exact .inl ht
  | timeout now i => exact (hparts.timedOut now i t ht).imp_right .inl
  | arrive now c i =>
    obtain ⟨hc, haccepts⟩ := hm
    refine (hparts.arrived now c i t ht).imp_right (Or.imp_right ?_)
    rintro ⟨s, hs, rfl, hout, -, hends⟩
    exact ⟨c, hc, hends, i, (h.slots s hs).interest_eq_ok hout, haccepts⟩
  | settled i =>
    rw [apply, settled_slots] at ht
    exact .inl ht
  | cancelled => exact .inl ht

theorem Asking.move (hasking : d.Asking store) (h : d.Sound) (hm : m.Gentle store) :
    (m.apply d).Asking store := by
  intro t ht hnone
  simp only [(hm.frame h).1.ends_iff]
  rcases hm.slots h ht with ht | ⟨i, since, hout, -⟩ | hends
  · exact hasking t ht hnone
  · rw [hout] at hnone
    cases hnone
  · exact hends

def Drifts (store : List Content) (d d' : Discovery) : Prop :=
  d' = d ∨ ∃ m : Move, m.Gentle store ∧ d' = m.apply d

end Discovery

/-- Those who are called when the retrieval has found something. -/
def Retrieval.followers (r : Retrieval) : List ListenerId :=
  match r.owner with
  | .listener l => [l]
  | .fanOut => r.fanOut.listeners
  | .gone => []

theorem Retrieval.followers_of_standing {r r' : Retrieval} (h : r'.standing = r.standing) :
    r'.followers = r.followers := by
  have howner : r'.owner = r.owner := congrArg Standing.owner h
  have hlisteners : r'.fanOut.listeners = r.fanOut.listeners := congrArg Standing.listeners h
  rw [followers, howner, hlisteners, followers]

/-- Tasks that come up while the retrieval `k` is refreshed, if `ls` follow it. -/
def Task.Feeds (k : Nat) (ls : List ListenerId) : Task → Prop
  | .answer _ => True
  | .perform id _ _ => id = k
  | .settle id _ => id = k
  | .arrive h _ _ => h = .retrieval k
  | .handOver id _ _ => id = k
  | .fanOut id ls' _ _ => id = k ∧ ls' ⊆ ls
  | .countFailure id => id = k
  | .refreshAll ids _ _ => ∀ id ∈ ids, id = k
  | _ => False

namespace Session

open Discovery (Move Drifts Asking)

variable {s s' : Session} {task : Task} {rest : List Task} {k id : Nat} {r : Retrieval}
  {ls : List ListenerId}

theorem mem_of_mayCall (h : task.Feeds k r.followers) (hr : s.retrievals[k]? = some r)
    {l : ListenerId} (hl : s.MayCall task l) : l ∈ r.followers := by
  cases task with
  | arrive handler c i =>
    obtain rfl : handler = .retrieval k := h
    cases hl
  | handOver id c i =>
    obtain rfl : id = k := h
    obtain ⟨r', hr', howner⟩ := hl
    obtain rfl : r' = r := Option.some.inj (hr'.symm.trans hr)
    rw [Retrieval.followers, howner]
    exact List.mem_singleton_self l
  | fanOut id ls' c i => exact h.2 hl
  | timeout => cases h
  | _ => cases hl

theorem Executed.feeds (h : Executed s task s') (hfeeds : task.Feeds k ls)
    (hr : s.retrievals[k]? = some r) (hfollowers : r.followers = ls)
    (hmute : ∀ l, s.MayCall task l → s.Mute l) :
    ∃ tasks, s'.agenda = tasks ++ s.agenda ∧ ∀ t ∈ tasks, t.Feeds k ls := by
  cases h with
  | replies | records | expired | settleKeeps | settleCancels | countsFailure =>
    exact ⟨[], rfl, by simp⟩
  | commands | asks | expires | starts | dropsOwner | registers | closes | keeps =>
    exact False.elim hfeeds
  | refreshesOnce | stopsNext | timesOutNext | timesOut => exact False.elim hfeeds
  | publishes htask | publishAnswers htask => cases htask <;> exact False.elim hfeeds
  | stops htends | tends a htends =>
    cases task <;> first | exact False.elim htends | exact False.elim hfeeds
  | callsBack l htask =>
    rw [(hmute l (mayCall_of_callsBack htask l)).call_eq]
    exact ⟨[], rfl, by simp⟩
  | cancels | expressRefused =>
    exact ⟨[_], rfl, List.forall_mem_singleton.2 hfeeds⟩
  | expressWaits => exact ⟨[_, _], rfl, by simpa [Task.Feeds] using hfeeds⟩
  | expressAnswered => exact ⟨[_, _, _], rfl, by simpa [Task.Feeds] using hfeeds⟩
  | @arrives id r₀ c i =>
    obtain rfl : id = k := Handler.retrieval.inj hfeeds
    refine ⟨_, rfl, ?_⟩
    split <;> simp [Task.Feeds]
  | refreshes ids now n =>
    refine ⟨[_, _], rfl, ?_⟩
    simpa [Task.Feeds] using hfeeds
  | handsTo c i hr₀ _ howner =>
    rw [(hmute _ ⟨_, hr₀, howner⟩).call_eq]
    exact ⟨[], rfl, by simp⟩
  | @handsOver id r₀ c i hr₀ hrun howner =>
    obtain rfl : id = k := hfeeds
    obtain rfl : r₀ = r := Option.some.inj (hr₀.symm.trans hr)
    rw [Retrieval.followers, howner] at hfollowers
    refine ⟨_, rfl, ?_⟩
    split <;> simp [Task.Feeds, hfollowers]
  | @fansOut id r₀ l ls' c i =>
    obtain ⟨rfl, hls⟩ := hfeeds
    rw [(hmute l List.mem_cons_self).call_eq]
    refine ⟨_, rfl, ?_⟩
    split <;> simpa [Task.Feeds] using List.subset_of_cons_subset hls
  | @skips id l ls' c i =>
    obtain ⟨rfl, hls⟩ := hfeeds
    exact ⟨[_], rfl, List.forall_mem_singleton.2 ⟨rfl, List.subset_of_cons_subset hls⟩⟩

theorem Executed.log_subset (h : Executed s task s') : s.log ⊆ s'.log := by
  cases h with
  | records | callsBack | handsTo | fansOut | cancels | expressWaits | expressAnswered
  | settleCancels => exact List.subset_cons_self _ _
  | expressRefused =>
    exact List.Subset.trans (List.subset_cons_self _ _) (List.subset_cons_self _ _)
  | closes =>
    rw [closeRegistry_eq]
    exact List.Subset.refl _
  | keeps n id hregistry hfind =>
    rw [keep, hfind]
    exact List.Subset.refl _
  | _ => exact List.Subset.refl _

theorem log_subset_step (s : Session) : s.log ⊆ s.step.log := by
  cases hagenda : s.agenda with
  | nil =>
    rw [step_of_nil hagenda]
    exact List.Subset.refl _
  | cons task rest => exact (step_executed hagenda).log_subset

def DriftsAt (k : Nat) (r : Retrieval) (s s' : Session) : Prop :=
  ∃ r', s'.retrievals[k]? = some r' ∧ Drifts s.transport.store r.discovery r'.discovery

theorem DriftsAt.of_eq (hr : s.retrievals[k]? = some r) (h : s'.retrievals = s.retrievals) :
    DriftsAt k r s s' := ⟨r, by rw [h, hr], .inl rfl⟩

theorem DriftsAt.of_discovery {g : Discovery → Discovery} (hr : s.retrievals[k]? = some r)
    (h : s'.retrievals = (s.modifyDiscovery id g).retrievals)
    (hg : id = k → ∃ m : Move, m.Gentle s.transport.store ∧ g r.discovery = m.apply r.discovery) :
    DriftsAt k r s s' := by
  have hget := s.modifyDiscovery_getElem? id k g
  rw [← h, hr, Option.map_some] at hget
  refine ⟨_, hget, ?_⟩
  by_cases hid : id = k
  · exact .inr (by simpa only [if_pos hid] using hg hid)
  · exact .inl (if_neg hid)

theorem DriftsAt.of_event {r₀ : Retrieval} {m : Move} (hr : s.retrievals[k]? = some r)
    (hr₀ : s.retrievals[id]? = some r₀) (hm : m.Gentle s.transport.store)
    (h : s'.retrievals = (s.modifyDiscovery id fun _ => m.apply r₀.discovery).retrievals) :
    DriftsAt k r s s' := by
  refine .of_discovery hr h ?_
  rintro rfl
  obtain rfl : r₀ = r := Option.some.inj (hr₀.symm.trans hr)
  exact ⟨m, hm, rfl⟩

theorem Executed.drifts (h : Executed s task s') (hmild : task.Mild s.transport.store)
    (hr : s.retrievals[k]? = some r) : .refused ∈ s'.log ∨ DriftsAt k r s s' := by
  cases h with
  | expressRefused => exact .inl List.mem_cons_self
  | cancels => exact .inr (.of_discovery hr rfl fun _ => ⟨.cancelled, True.intro, rfl⟩)
  | @settleKeeps id i _ hr₀ | @settleCancels id i _ hr₀ =>
    exact .inr (.of_event (m := .settled i) hr hr₀ True.intro rfl)
  | arrives c i hr₀ => exact .inr (.of_event (m := .arrive s.now c i) hr hr₀ hmild rfl)
  | timesOut i hr₀ => exact .inr (.of_event (m := .timeout s.now i) hr hr₀ True.intro rfl)
  | refreshes ids now n hr₀ =>
    exact .inr (.of_event (m := .refresh now) hr hr₀ True.intro rfl)
  | countsFailure id =>
    have hget := s.modifyFanOut_getElem? id k (·.countFailure)
    rw [hr, Option.map_some] at hget
    exact .inr ⟨_, hget, .inl rfl⟩
  | commands | asks | expires | starts | dropsOwner | registers | closes | keeps =>
    exact False.elim hmild
  | refreshesOnce | stopsNext => exact False.elim hmild
  | stops hmanages | tends a hmanages => exact absurd hmanages hmild.not_tends
  | _ => exact .inr (.of_eq hr rfl)

end Session

end NamedContent
