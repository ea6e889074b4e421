import NamedContent.Proofs.BooksProgress
import NamedContent.Proofs.ExactlyOnce

/-! What the transport holds for a discovery, once a call has returned: just what the discovery
takes to be outstanding, and each Interest once, since no two slots express the same one. It
matters neither what the transport has refused meanwhile, nor who else uses it, nor whether a
listener has stopped the discovery in the middle of a call. -/

namespace NamedContent

theorem Partition.head?_components {p : Partition} {f : ExcludeFilter}
    (h : p.excludeFilter = .ok f) : f.components.head? = some p.below := by
  rw [(parts_of_excludeFilter h).1, List.head?_cons]

theorem Partition.WellFormed.interest_ne {p q : Partition} {basename : Name} {config : Config}
    {i j : Interest} (hp : p.WellFormed) (hq : q.WellFormed) (hlt : p.upper < q.lower)
    (hi : p.interest basename config = .ok i) (hj : q.interest basename config = .ok j) :
    i ≠ j := by
  rintro rfl
  obtain ⟨f, hf, rfl⟩ := interest_name hi
  obtain ⟨g, hg, hsame⟩ := interest_name hj
  obtain rfl : f = g := by
    rw [Interest.mk.injEq] at hsame
    simpa using hsame
  -- Both filters begin with the component below, so the partitions would begin at one version.
  have hbelow : p.below = q.below := by
    rw [← Option.some.injEq, ← head?_components hf, head?_components hg]
  have hlower : q.below < p.lower.toComponent := by
    rw [← hbelow, hp.below_lt_toComponent_iff hp.lower_inRange, Version.le_iff]
  rw [hq.below_lt_toComponent_iff hp.lower_inRange] at hlower
  have hle := hp.lower_le_upper
  rw [Version.le_iff] at hlower hle
  rw [Version.lt_iff] at hlt
  omega

theorem Discovery.Sound.outstanding_nodup {d : Discovery} (h : d.Sound) :
    d.outstanding.Nodup := by
  have hordered : d.slots.Pairwise fun s t => s.partition.upper < t.partition.lower :=
    List.pairwise_map.1 h.tiles.pairwise
  refine List.pairwise_filterMap.2 (hordered.imp_of_mem fun {s t} hs ht hlt i hi j hj => ?_)
  have hslot := h.slots s hs
  have hslot' := h.slots t ht
  exact hslot.wellFormed.interest_ne hslot'.wellFormed hlt (hslot.interest_eq_ok hi)
    (hslot'.interest_eq_ok hj)

/-- The transport holds for the discovery what that takes to be outstanding, each Interest once. -/
structure Agrees (d : Discovery) (t : Transport Handler) : Prop where
  perm : (t.heldFor (.retrieval 0)).Perm d.outstanding
  once : (t.heldFor (.retrieval 0)).Nodup
  owned : ∀ p ∈ t.pending, p.handler = .retrieval 0 →
    ∃ s ∈ d.slots, s.outstanding = some p.interest
  believed : ∀ s ∈ d.slots, ∀ i, s.outstanding = some i → ⟨i, .retrieval 0⟩ ∈ t.pending

namespace Books

variable {d : Discovery} {t : Transport Handler}

theorem perm (h : Books d t []) : (t.heldFor (.retrieval 0)).Perm d.outstanding := by
  by_cases hphase : d.phase = .stopped
  · have hheld : t.heldFor (.retrieval 0) = [] := List.eq_nil_iff_forall_not_mem.2 fun i hi =>
      absurd (h.withdrawn hphase i) (Nat.not_le_of_lt (List.count_pos_iff.2 hi))
    rw [h.sound.outstanding_eq_nil (by simp [hphase]), hheld]
  · refine List.perm_iff_count.2 fun j => ?_
    exact (h.balance hphase j).symm

theorem agrees (h : Books d t []) : Agrees d t := by
  have hperm := h.perm
  refine ⟨hperm, hperm.nodup_iff.2 h.sound.outstanding_nodup, ?_, ?_⟩
  · rintro ⟨i, handler⟩ hp rfl
    exact Discovery.mem_outstanding.1 (hperm.mem_iff.1 (Transport.mem_heldFor.2 hp))
  · intro s hs i hi
    exact Transport.mem_heldFor.1 (hperm.mem_iff.2 (Discovery.mem_outstanding.2 ⟨s, hs, hi⟩))

end Books

namespace Session

/-- What holds at every moment of a call to a discovery whose listeners may stop it. -/
structure Booked (o : ListenerId) (reach : Nat) (s : Session) (d : Discovery) : Prop where
  hosts : Hosts o s d
  reach_eq : s.reach = reach
  books : Books d s.transport s.agenda

theorem Hosts.discovery?_eq {o : ListenerId} {s : Session} {d : Discovery} (h : Hosts o s d) :
    s.discovery? = some d := h.solo.discovery?_eq

namespace Booked

variable {o : ListenerId} {reach : Nat} {s : Session} {d : Discovery}

theorem created {basename : Name} {config : Config} {trust : Trust} {exclusions : List Version}
    {floor : Option Version} {f : FanOut} (hvalid : config.Valid)
    (hrange : ∀ v ∈ exclusions, v.InRange)
    (hretrievals : s.retrievals =
      [{ discovery := .create basename config trust exclusions floor
         owner := .listener o, fanOut := f }])
    (hstops : s.StopsOnly) (hnone : ∀ p ∈ s.transport.pending, p.handler ≠ .retrieval 0)
    (hidle : s.agenda = []) :
    Booked o s.reach s (.create basename config trust exclusions floor) := by
  refine ⟨⟨⟨f, hretrievals⟩, hstops⟩, rfl, ?_⟩
  rw [hidle]
  exact .created (Discovery.create_sound hvalid hrange) rfl hnone

theorem advance (h : Booked o reach s d) (hleft : s.agenda ≠ []) : ∃ d', Booked o reach s.step d' ∧
    Shrinks (backlog reach d' s.step.transport s.step.agenda)
      (backlog reach d s.transport s.agenda) := by
  obtain ⟨hhosts, rfl, hbooks⟩ := h
  obtain ⟨task, rest, hagenda⟩ := List.exists_cons_of_ne_nil hleft
  rw [hagenda] at hbooks ⊢
  obtain ⟨e, hworks, hcomes⟩ := hhosts.step_works hagenda hbooks.layered.hosted
  have hreach : s.step.reach = s.reach := by rw [Session.reach, hcomes.scripts, Session.reach]
  have hnext := hbooks.works hworks
  have hless := hbooks.backlog_works hworks
  rw [← hcomes.transport, ← hcomes.agenda] at hnext hless
  exact ⟨e.discovery, ⟨hcomes.hosts, hreach, hnext⟩, hless⟩

theorem finish (h : Booked o reach s d) (fuel : Nat) : ∃ d', Booked o reach (s.finish fuel) d' := by
  refine finish_keeps (fun hkept hleft => ?_) h fuel
  obtain ⟨d', hstep, -⟩ := hkept.advance hleft
  exact ⟨d', hstep⟩

theorem exists_finish (h : Booked o reach s d) : ∃ fuel, (s.finish fuel).agenda = [] :=
  finish_ends (f := fun s d => backlog reach d s.transport s.agenda) shrinks_wellFounded
    (fun hkept hleft => hkept.advance hleft) h

theorem take_up (h : Booked o reach s d) (hdone : s.agenda = []) {c : Command} (hc : c.Manages) :
    Booked o reach { s with agenda := [.command c], log := [] } d := by
  obtain ⟨hhosts, hreach, hbooks⟩ := h
  rw [hdone] at hbooks
  exact ⟨⟨hhosts.retrievals, hhosts.stops⟩, hreach, hbooks.take_up hc⟩

end Booked

section Plays

variable {o : ListenerId} {start s : Session} {d₀ : Discovery} {commands : List Command}
  {handed : List Content}

theorem Plays.booked (hstart : Booked o start.reach start d₀) (hidle : start.agenda = [])
    (hmanages : ∀ c ∈ commands, c.Manages) (h : Plays start commands handed s) :
    ∃ d, Booked o start.reach s d ∧ s.agenda = [] := by
  induction h with
  | nil => exact ⟨d₀, hstart, hidle⟩
  | @call commands handed s _ c fuel hreturn ih =>
    obtain ⟨d, hbooked, hdone⟩ := ih fun c hc => hmanages c (List.mem_append_left _ hc)
    obtain ⟨d', hlast⟩ := (hbooked.take_up hdone (hmanages c (by simp))).finish fuel
    exact ⟨d', hlast, hreturn⟩

theorem Booked.exists_plays (hstart : Booked o start.reach start d₀) (hidle : start.agenda = [])
    (hmanages : ∀ c ∈ commands, c.Manages) : ∃ handed s, Plays start commands handed s := by
  induction commands using List.reverseRecOn with
  | nil => exact ⟨_, _, .nil⟩
  | append_singleton commands c ih =>
    have hbefore : ∀ c ∈ commands, c.Manages := fun c hc => hmanages c (List.mem_append_left _ hc)
    obtain ⟨handed, s, h⟩ := ih hbefore
    obtain ⟨d, hbooked, hdone⟩ := h.booked hstart hidle hbefore
    obtain ⟨fuel, hreturn⟩ := (hbooked.take_up hdone (hmanages c (by simp))).exists_finish
    exact ⟨_, _, .call h c fuel hreturn⟩

/-- Whatever is started, stopped, refreshed, published, expired and refused in whatever order, each
call returns, and whenever one has, the transport holds for the discovery just what that takes to be
outstanding, each Interest once. Listeners may stop the discovery when they are called, and others
may wait at the transport. -/
theorem calls_leave_agreement {basename : Name} {config : Config} {trust : Trust}
    {exclusions : List Version} {floor : Option Version} {f : FanOut}
    (hvalid : config.Valid) (hrange : ∀ v ∈ exclusions, v.InRange)
    (hretrievals : start.retrievals =
      [{ discovery := .create basename config trust exclusions floor
         owner := .listener o, fanOut := f }])
    (hstops : start.StopsOnly) (hnone : ∀ p ∈ start.transport.pending, p.handler ≠ .retrieval 0)
    (hidle : start.agenda = []) (hmanages : ∀ c ∈ commands, c.Manages) :
    (∃ handed s, Plays start commands handed s) ∧
    ∀ handed s, Plays start commands handed s →
      ∃ d, s.discovery? = some d ∧ Agrees d s.transport := by
  have hstart := Booked.created hvalid hrange hretrievals hstops hnone hidle
  refine ⟨hstart.exists_plays hidle hmanages, fun handed s hplays => ?_⟩
  obtain ⟨d, hbooked, hdone⟩ := hplays.booked hstart hidle hmanages
  have hlast := hbooked.books
  rw [hdone] at hlast
  exact ⟨d, hbooked.hosts.discovery?_eq, hlast.agrees⟩

def sampleShared : Session :=
  { sampleOpening with
    transport := { pending := [⟨{ name := ⟨[[2]]⟩ }, .listener "other"⟩] }
    scripts := [("owner", { calls := [[], [⟨"stop", .stopDiscovery .first⟩]] })] }

def sampleCalls : List Command :=
  [.refuseNext 1, .startDiscovery .first, .refresh .first 0, .publish (sampleContent 7)]

theorem plays_shared :
    (∃ handed s, Plays sampleShared sampleCalls handed s ∧ s.transport.pending.length = 2) ∧
    ∃ handed s, Plays sampleShared (sampleCalls ++ [.publish (sampleContent 9)]) handed s ∧
      s.transport.pending.length = 1 := by
  have h₀ : Plays sampleShared [] [] sampleShared := .nil
  have h₁ := h₀.call (.refuseNext 1) 20 (by cbv)
  have h₂ := h₁.call (.startDiscovery .first) 20 (by cbv)
  have h₃ := h₂.call (.refresh .first 0) 20 (by cbv)
  have h₄ := h₃.call (.publish (sampleContent 7)) 20 (by cbv)
  have h₅ := h₄.call (.publish (sampleContent 9)) 20 (by cbv)
  exact ⟨⟨_, _, h₄, by cbv⟩, _, _, h₅, by cbv⟩

theorem calls_leave_agreement_sample :
    (∃ handed s, Plays sampleShared sampleCalls handed s ∧ s.transport.pending.length = 2 ∧
      ∃ d, s.discovery? = some d ∧ Agrees d s.transport) ∧
    ∃ handed s, Plays sampleShared (sampleCalls ++ [.publish (sampleContent 9)]) handed s ∧
      s.transport.pending.length = 1 ∧
      ∃ d, s.discovery? = some d ∧ Agrees d s.transport := by
  have hrange : ∀ v ∈ [(⟨5⟩ : Version)], v.InRange := by decide
  have hstops : sampleShared.StopsOnly := by simp [StopsOnly, sampleShared]
  have hnone : ∀ p ∈ sampleShared.transport.pending, p.handler ≠ .retrieval 0 := by
    simp [sampleShared]
  have hmanages : ∀ c ∈ sampleCalls ++ [.publish (sampleContent 9)], c.Manages := by
    simp [sampleCalls, Command.Manages]
  have hagree : ∀ commands ⊆ sampleCalls ++ [.publish (sampleContent 9)], ∀ handed s,
      Plays sampleShared commands handed s → ∃ d, s.discovery? = some d ∧ Agrees d s.transport :=
    fun commands hsubset =>
      (@calls_leave_agreement "owner" sampleShared commands ⟨[[1]]⟩ {} .exactKey [⟨5⟩] none {} rfl
        hrange rfl hstops hnone rfl fun c hc => hmanages c (hsubset hc)).2
  obtain ⟨⟨handed, s, hplays, hpending⟩, handed', s', hplays', hpending'⟩ := plays_shared
  refine ⟨⟨handed, s, hplays, hpending, hagree _ ?_ _ _ hplays⟩, handed', s', hplays', hpending',
    hagree _ (List.Subset.refl _) _ _ hplays'⟩
  exact List.subset_append_left _ _

end Plays

end Session

end NamedContent
