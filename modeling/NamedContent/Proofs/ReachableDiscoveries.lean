import NamedContent.Proofs.DiscoveryRuns

/-! What holds of every reachable discovery: its slots tile the version space with filters that can
be built, an Interest outstanding is the one of its partition as it is, and so no version is ever
asked for twice. -/

namespace NamedContent

namespace Discovery

open NamedContent.Partition (Tiles)

variable {d : Discovery} {now : Time} {c : Content} {i : Interest}

/-- The slots partition the version space. The last five fields say that no event fails to find
the partition of a version or to build the Interest of a partition: a slot that is expressed anew
is live, so one found idle after an event was left alone or cleared on purpose. -/
structure Partitioned (d : Discovery) : Prop where
  nonempty : d.slots ≠ []
  ordered : d.slots.Pairwise fun s t => s.partition.upper < t.partition.lower
  tiles : Tiles Version.first.ticks.toNat (Version.last.ticks.toNat + 1)
    (d.slots.map (·.partition))
  bounded : ∀ s ∈ d.slots, ∀ v ∈ s.partition.excluded,
    s.partition.lower ≤ v ∧ v ≤ s.partition.upper
  limited : ∀ s ∈ d.slots, s.partition.excluded.length ≤ d.config.maxExcludes
  filtered : ∀ s ∈ d.slots, ∃ f, s.partition.excludeFilter = .ok f
  expressible : ∀ s ∈ d.slots, ∃ i, s.partition.interest d.basename d.config = .ok i
  idle_or_live : ∀ s ∈ d.slots, s.Idle ∨ s.Live d.basename d.config
  found : ∀ (c : Content) (v : Version), Version.ofNameAt c.name d.basename.length = .ok v →
    ∃ k s, d.slotCovering? v = some k ∧ d.slots[k]? = some s ∧ s.partition.covers v = true
  started : ∀ now, d.phase = .created →
    ∀ t ∈ (d.start now).1.slots, t.Live d.basename d.config
  refreshed : ∀ now, d.isRunning = true →
    ∀ t ∈ (d.refresh now).1.slots, t.Live d.basename d.config
  timedOut : ∀ now i, ∀ t ∈ (d.timeout now i).1.slots,
    t ∈ d.slots ∨ t.Live d.basename d.config
  arrived : ∀ now c i, ∀ t ∈ (d.arrive now c i).discovery.slots,
    t ∈ d.slots ∨ t.Live d.basename d.config ∨
      ∃ s ∈ d.slots, t = s.clear ∧ s.outstanding = some i ∧ i.accepts d.trust c = true ∧
        c.name.component? d.basename.length = none

namespace Sound

theorem tiles_bounds (h : d.Sound) :
    Tiles Version.first.ticks.toNat (Version.last.ticks.toNat + 1)
      (d.slots.map (·.partition)) := by
  rw [Version.ticks_first, Version.ticks_last]
  exact h.tiles

theorem nonempty (h : d.Sound) : d.slots ≠ [] := by
  intro hnil
  have htiles := h.tiles
  rw [hnil, List.map_nil, Tiles] at htiles
  omega

theorem refreshed (h : d.Sound) (hrun : d.isRunning = true) {t : Slot}
    (ht : t ∈ (d.refresh now).1.slots) : t.Live d.basename d.config := by
  rw [(refresh_eq hrun).1] at ht
  obtain ⟨s, hs, rfl⟩ := List.mem_map.1 ht
  rw [s.refresh_eq]
  split
  · exact Slot.fresh_live (h.slots s hs).wellFormed
  · rename_i hdue
    rcases (h.slots s hs).idle_or_live with hidle | hlive
    · exact absurd (by simp [Slot.isDue, hidle.1]) hdue
    · exact hlive

theorem timedOut (h : d.Sound) {t : Slot} (ht : t ∈ (d.timeout now i).1.slots) :
    t ∈ d.slots ∨ t.Live d.basename d.config := by
  by_cases hrun : d.isRunning = true
  · cases hawait : d.slotAwaiting? i with
    | none =>
      simp only [timeout, hrun, if_true, hawait] at ht
      exact .inl ht
    | some k =>
      obtain ⟨pre, s, post, hslots, rfl, -⟩ := slotAwaiting?_eq_some hawait
      rw [timeout_eq hrun hslots hawait] at ht
      simp only [List.mem_append, List.mem_cons] at ht
      rcases ht with ht | rfl | ht
      · exact .inl (by simp [hslots, ht])
      · exact .inr (Slot.fresh_live (h.slot hslots).wellFormed)
      · exact .inl (by simp [hslots, ht])
  · rw [timeout, if_neg hrun] at ht
    exact .inl ht

theorem slots_partition (h : d.Sound) : d.Partitioned where
  nonempty := h.nonempty
  ordered := List.pairwise_map.1 h.tiles.pairwise
  tiles := h.tiles_bounds
  bounded s hs v hv := Partition.covers_iff.1 ((h.slots s hs).wellFormed.excluded_covered v hv)
  limited s hs := (h.slots s hs).length_le
  filtered s hs := by
    obtain ⟨f, hf, -⟩ := (h.slots s hs).wellFormed.excludeFilter_eq_ok
    exact ⟨f, hf⟩
  expressible s hs := by
    obtain ⟨_, -, -, hok⟩ := (h.slots s hs).wellFormed.interest_eq_ok d.basename d.config
    exact ⟨_, hok⟩
  idle_or_live s hs := (h.slots s hs).idle_or_live
  found c v hv := by
    obtain ⟨pre, s, post, hslots, hcov, htarget⟩ :=
      h.exists_slotCovering? (Version.ofNameAt_eq_ok_iff.1 hv).1
    exact ⟨pre.length, s, htarget, by rw [hslots, getElem?_append_cons], hcov⟩
  started now hphase t ht := h.started hphase ht
  refreshed now hrun t ht := h.refreshed hrun ht
  timedOut now i t ht := h.timedOut ht
  arrived now c i t ht := by
    by_cases hrun : d.isRunning = true
    · exact (arrive_taken h hrun).live h ht
    · rw [arrive, if_neg hrun] at ht
      exact .inl ht

end Sound

/-- Whatever happens to a discovery in whatever order, its slots partition the version space. -/
theorem Reachable.partitioned (h : Reachable d) : d.Partitioned := h.sound.slots_partition

def created : Discovery := create ⟨[[1]]⟩ { maxExcludes := 2 } .exactKey [⟨5⟩] none

def sampleArrival (ticks : UInt64) : Move :=
  .arrive 0 (.unsigned ⟨[[1], Version.toComponent ⟨ticks⟩]⟩ []) { name := ⟨[[1]]⟩ }

def sample : Discovery :=
  (sampleArrival 9).apply ((sampleArrival 7).apply ((Move.start 0).apply created))

theorem reachable_created : Reachable created := .create _ _ _ rfl (by decide)

theorem reachable_sample : Reachable sample := .move _ (.move _ (.move _ reachable_created))

theorem partitioned_sample :
    Reachable sample ∧ sample.partitionCount = 2 ∧ sample.Partitioned :=
  ⟨reachable_sample, by cbv, reachable_sample.partitioned⟩

namespace Sound

theorem outstanding_excludes (h : d.Sound) {v : Version} (hv : v.InRange)
    (hex : d.isExcluded v = true) (hi : i ∈ d.outstanding) :
    ∃ f, i.exclude = some f ∧ f.excludes v.toComponent = true := by
  obtain ⟨s, hs, hout⟩ := List.mem_filterMap.1 hi
  have hwf := (h.slots s hs).wellFormed
  obtain ⟨f, -, hadmits, hok⟩ := hwf.interest_eq_ok d.basename d.config
  have hi := Except.ok.inj (hok.symm.trans ((h.slots s hs).interest_eq_ok hout))
  refine ⟨f, by rw [← hi], ?_⟩
  rw [← Bool.not_eq_false, hadmits, hwf.admits_toComponent_iff hv]
  rintro ⟨hcov, hnew⟩
  exact hnew ((h.isExcluded_iff_of_covers hs hcov).1 hex)

theorem filter_admits_iff (h : d.Sound) {v : Version} (hv : v.InRange) {s : Slot}
    (hs : s ∈ d.slots) {f : ExcludeFilter} (hf : s.partition.excludeFilter = .ok f) :
    f.excludes v.toComponent = false ↔
      s.partition.covers v = true ∧ d.isExcluded v = false := by
  have hwf := (h.slots s hs).wellFormed
  obtain ⟨g, hg, hadmits⟩ := hwf.excludeFilter_eq_ok
  obtain rfl : g = f := Except.ok.inj (hg.symm.trans hf)
  rw [hadmits, hwf.admits_toComponent_iff hv]
  refine and_congr_right fun hcov => ?_
  rw [← Bool.not_eq_true, h.isExcluded_iff_of_covers hs hcov]

theorem exists_unique_admitting (h : d.Sound) {v : Version} (hv : v.InRange)
    (hnew : d.isExcluded v = false) :
    ∃ k s f, d.slotCovering? v = some k ∧ d.slots[k]? = some s ∧
      s.partition.excludeFilter = .ok f ∧ f.excludes v.toComponent = false ∧
      ∀ j t g, d.slots[j]? = some t → t.partition.excludeFilter = .ok g →
        g.excludes v.toComponent = false → j = k := by
  obtain ⟨pre, s, post, hslots, hcov, htarget⟩ := h.exists_slotCovering? hv
  have hs : s ∈ d.slots := by simp [hslots]
  obtain ⟨f, hf, -⟩ := (h.slots s hs).wellFormed.excludeFilter_eq_ok
  refine ⟨pre.length, s, f, htarget, by rw [hslots, getElem?_append_cons], hf,
    (h.filter_admits_iff hv hs hf).2 ⟨hcov, hnew⟩, ?_⟩
  intro j t g ht hg hadmit
  have hcovt := ((h.filter_admits_iff hv (List.mem_of_getElem? ht) hg).1 hadmit).1
  obtain ⟨before, after, hsplit, rfl⟩ := exists_split_of_getElem? ht
  have hsome := h.slotCovering?_eq_some hsplit hcovt
  rw [htarget] at hsome
  exact (Option.some.inj hsome).symm

theorem answered (h : d.Sound) {v : Version} (hi : i ∈ d.outstanding)
    (hacc : i.accepts d.trust c = true)
    (hv : Version.ofNameAt c.name d.basename.length = .ok v) :
    ∃ k s, d.slotAwaiting? i = some k ∧ d.slots[k]? = some s ∧ s.outstanding = some i ∧
      s.partition.covers v = true ∧ d.isExcluded v = false ∧ d.slotCovering? v = some k ∧
      (d.arrive now c i).discovery.metrics.duplicates = d.metrics.duplicates ∧
      (d.arrive now c i).discovery.slots =
        d.slots.take k ++ d.renewed now s.partition v ++ d.slots.drop (k + 1) := by
  have hrun := h.isRunning_of_outstanding hi
  obtain ⟨pre, s, post, hslots, hs, hask⟩ := exists_awaiting hi
  have hmem : s ∈ d.slots := by simp [hslots]
  obtain ⟨hcov, hnew⟩ := h.answer_version hmem hs hacc hv
  have hex : d.isExcluded v = false := by
    rw [← Bool.not_eq_true, h.isExcluded_iff_of_covers hmem hcov]
    exact hnew
  refine ⟨pre.length, s, hask, by rw [hslots, getElem?_append_cons], hs, hcov, hex,
    h.slotCovering?_eq_some hslots hcov, ?_, ?_⟩
  · obtain ⟨m, hm, -, hdup⟩ := recordVersion_eq d v
    rw [arrive_version_eq h hrun hslots hs hask hacc hv, grown, hm]
    exact hdup
  · rw [arrive_version_eq h hrun hslots hs hask hacc hv, grown_slots]
    simp [hslots]

end Sound

/-- No version is asked for twice: what is outstanding admits no version excluded, each other
version is admitted by the one slot that covers it, and so an answer that holds a version is never
a duplicate. -/
theorem Reachable.asks_only_for_new (h : Reachable d) :
    (∀ v : Version, v.InRange → d.isExcluded v = true → ∀ i ∈ d.outstanding,
      ∃ f, i.exclude = some f ∧ f.excludes v.toComponent = true) ∧
    (∀ v : Version, v.InRange → d.isExcluded v = false →
      ∃ k s f, d.slotCovering? v = some k ∧ d.slots[k]? = some s ∧
        s.partition.excludeFilter = .ok f ∧ f.excludes v.toComponent = false ∧
        ∀ j t g, d.slots[j]? = some t → t.partition.excludeFilter = .ok g →
          g.excludes v.toComponent = false → j = k) ∧
    (∀ (now : Time) (c : Content) (i : Interest) (v : Version), i ∈ d.outstanding →
      i.accepts d.trust c = true → Version.ofNameAt c.name d.basename.length = .ok v →
      ∃ k s, d.slotAwaiting? i = some k ∧ d.slots[k]? = some s ∧ s.outstanding = some i ∧
        s.partition.covers v = true ∧ d.isExcluded v = false ∧ d.slotCovering? v = some k ∧
        (d.arrive now c i).discovery.metrics.duplicates = d.metrics.duplicates ∧
        (d.arrive now c i).discovery.slots =
          d.slots.take k ++ d.renewed now s.partition v ++ d.slots.drop (k + 1)) :=
  ⟨fun _ hv hex _ hi => h.sound.outstanding_excludes hv hex hi,
    fun _ hv hnew => h.sound.exists_unique_admitting hv hnew,
    fun _ _ _ _ hi hacc hv => h.sound.answered hi hacc hv⟩

theorem asks_only_for_new_sample :
    Reachable sample ∧ sample.isExcluded ⟨5⟩ = true ∧ sample.isExcluded ⟨8⟩ = false ∧
    (∀ i ∈ sample.outstanding,
      ∃ f, i.exclude = some f ∧ f.excludes (Version.toComponent ⟨5⟩) = true) ∧
    ∃ k s f, sample.slotCovering? ⟨8⟩ = some k ∧ sample.slots[k]? = some s ∧
      s.partition.excludeFilter = .ok f ∧ f.excludes (Version.toComponent ⟨8⟩) = false ∧
      ∀ j t g, sample.slots[j]? = some t → t.partition.excludeFilter = .ok g →
        g.excludes (Version.toComponent ⟨8⟩) = false → j = k := by
  have hold : sample.isExcluded ⟨5⟩ = true := by cbv
  have hnew : sample.isExcluded ⟨8⟩ = false := by cbv
  obtain ⟨hexcludes, hadmits, -⟩ := reachable_sample.asks_only_for_new
  exact ⟨reachable_sample, hold, hnew, hexcludes _ (by decide) hold, hadmits _ (by decide) hnew⟩

end Discovery

end NamedContent
