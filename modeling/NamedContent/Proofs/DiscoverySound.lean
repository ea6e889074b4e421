import NamedContent.Proofs.SlotState

/-! Sound discoveries: the partitions of the slots tile all versions, every slot is sound, and
nothing is outstanding unless the discovery runs. Then a version that answers an outstanding
Interest is one that the slot of that Interest covers and has not seen. Every event that leaves
the partitions alone keeps a discovery sound. -/

namespace NamedContent.Discovery

open NamedContent.Partition (Tiles)

structure Sound (d : Discovery) : Prop where
  config_valid : d.config.Valid
  tiles : Tiles 0 (2 ^ 48) (d.slots.map (·.partition))
  slots : ∀ s ∈ d.slots, s.Sound d.basename d.config
  quiet : d.isRunning = false → ∀ s ∈ d.slots, s.outstanding = none

theorem isRunning_iff {d : Discovery} : d.isRunning = true ↔ d.phase = .running := by
  simp [isRunning]

theorem slotAwaiting?_eq_some {d : Discovery} {i : Interest} {k : Nat}
    (h : d.slotAwaiting? i = some k) :
    ∃ pre s post, d.slots = pre ++ s :: post ∧ pre.length = k ∧ s.outstanding = some i := by
  obtain ⟨pre, s, post, hslots, hk, hs, -⟩ := findIdx?_eq_some_split h
  exact ⟨pre, s, post, hslots, hk, by simpa [Slot.awaits] using hs⟩

theorem slotAwaiting?_eq_none_iff {d : Discovery} {i : Interest} :
    d.slotAwaiting? i = none ↔ ∀ s ∈ d.slots, s.outstanding ≠ some i := by
  simp [slotAwaiting?, List.findIdx?_eq_none_iff, Slot.awaits]

theorem mem_outstanding {d : Discovery} {i : Interest} :
    i ∈ d.outstanding ↔ ∃ s ∈ d.slots, s.outstanding = some i := List.mem_filterMap

theorem exists_awaiting {d : Discovery} {i : Interest} (hi : i ∈ d.outstanding) :
    ∃ pre s post, d.slots = pre ++ s :: post ∧ s.outstanding = some i ∧
      d.slotAwaiting? i = some pre.length := by
  obtain ⟨t, ht, hout⟩ := mem_outstanding.1 hi
  cases hask : d.slotAwaiting? i with
  | none => exact absurd hout (slotAwaiting?_eq_none_iff.1 hask t ht)
  | some k =>
    obtain ⟨pre, s, post, hslots, rfl, hs⟩ := slotAwaiting?_eq_some hask
    exact ⟨pre, s, post, hslots, hs, rfl⟩

/-- Two discoveries that differ only in how far they are. -/
structure SameTask (d d' : Discovery) : Prop where
  basename : d'.basename = d.basename
  config : d'.config = d.config
  trust : d'.trust = d.trust
  floor : d'.floor = d.floor

theorem SameTask.refl (d : Discovery) : SameTask d d := ⟨rfl, rfl, rfl, rfl⟩

theorem SameTask.trans {a b c : Discovery} (h : SameTask a b) (h' : SameTask b c) : SameTask a c :=
  ⟨h'.basename.trans h.basename, h'.config.trans h.config, h'.trust.trans h.trust,
    h'.floor.trans h.floor⟩

theorem isExcluded_congr {d d' : Discovery}
    (h : d'.slots.map (·.partition) = d.slots.map (·.partition)) (v : Version) :
    d'.isExcluded v = d.isExcluded v := by
  have hparts : ∀ e : Discovery, e.isExcluded v =
      (e.slots.map (·.partition)).any fun p => p.covers v && p.isExcluded v := by
    intro e
    rw [isExcluded, List.any_map]
    rfl
  rw [hparts, hparts, h]

theorem map_partition {f : Slot → Slot} {slots : List Slot}
    (h : ∀ s ∈ slots, (f s).partition = s.partition) :
    (slots.map f).map (·.partition) = slots.map (·.partition) := by
  rw [List.map_map]
  exact List.map_congr_left h

theorem isExcluded_replace_one {d d' : Discovery} {pre post : List Slot} {s t : Slot}
    (hslots : d.slots = pre ++ s :: post) (hslots' : d'.slots = pre ++ t :: post)
    (hlower : t.partition.lower = s.partition.lower)
    (hupper : t.partition.upper = s.partition.upper)
    (hexcluded : t.partition.excluded = s.partition.excluded) (v : Version) :
    d'.isExcluded v = d.isExcluded v := by
  simp only [isExcluded, hslots, hslots', List.any_append, List.any_cons, Partition.covers,
    Partition.isExcluded, hlower, hupper, hexcluded]

namespace Sound

variable {d : Discovery} {pre post : List Slot} {s : Slot} {v : Version} {c : Content}
  {i : Interest}

theorem slot (h : d.Sound) (hslots : d.slots = pre ++ s :: post) :
    s.Sound d.basename d.config :=
  h.slots s (by simp [hslots])

theorem isRunning_of_outstanding (h : d.Sound) (hi : i ∈ d.outstanding) : d.isRunning = true := by
  obtain ⟨s, hs, hout⟩ := mem_outstanding.1 hi
  cases hrun : d.isRunning with
  | true => rfl
  | false =>
    rw [h.quiet hrun s hs] at hout
    cases hout

theorem exists_covers (h : d.Sound) (hv : v.InRange) :
    ∃ s ∈ d.slots, s.partition.covers v = true := by
  obtain ⟨p, hp, hcov⟩ := h.tiles.exists_covers (Nat.zero_le _) (Version.inRange_iff.1 hv)
  obtain ⟨s, hs, rfl⟩ := List.mem_map.1 hp
  exact ⟨s, hs, hcov⟩

theorem covers_eq_false (h : d.Sound) (hslots : d.slots = pre ++ s :: post)
    (hv : s.partition.covers v = true) {t : Slot} (ht : t ∈ pre ++ post) :
    t.partition.covers v = false := by
  have htiles := h.tiles
  rw [hslots, List.map_append, List.map_cons] at htiles
  refine htiles.covers_eq_false hv ?_
  rw [← List.map_append]
  exact List.mem_map_of_mem ht

theorem slotCovering?_eq_some (h : d.Sound) (hslots : d.slots = pre ++ s :: post)
    (hv : s.partition.covers v = true) : d.slotCovering? v = some pre.length := by
  rw [slotCovering?, hslots]
  exact findIdx?_append_cons
    (fun t ht => h.covers_eq_false hslots hv (List.mem_append_left _ ht)) hv

theorem exists_slotCovering? (h : d.Sound) (hv : v.InRange) :
    ∃ pre s post, d.slots = pre ++ s :: post ∧ s.partition.covers v = true ∧
      d.slotCovering? v = some pre.length := by
  obtain ⟨s, hs, hcov⟩ := h.exists_covers hv
  obtain ⟨pre, post, hslots⟩ := List.append_of_mem hs
  exact ⟨pre, s, post, hslots, hcov, h.slotCovering?_eq_some hslots hcov⟩

theorem isExcluded_iff (h : d.Sound) :
    d.isExcluded v = true ↔ ∃ s ∈ d.slots, v ∈ s.partition.excluded := by
  simp only [isExcluded, List.any_eq_true, Bool.and_eq_true, isExcluded, Partition.isExcluded,
    List.contains_iff_mem]
  constructor
  · rintro ⟨s, hs, -, hv⟩
    exact ⟨s, hs, hv⟩
  · rintro ⟨s, hs, hv⟩
    exact ⟨s, hs, (h.slots s hs).wellFormed.excluded_covered v hv, hv⟩

theorem isExcluded_iff_of_covers (h : d.Sound) (hs : s ∈ d.slots)
    (hcov : s.partition.covers v = true) : d.isExcluded v = true ↔ v ∈ s.partition.excluded := by
  rw [h.isExcluded_iff]
  refine ⟨?_, fun hv => ⟨s, hs, hv⟩⟩
  rintro ⟨t, ht, hv⟩
  obtain ⟨pre, post, hslots⟩ := List.append_of_mem hs
  rw [hslots, List.mem_append, List.mem_cons] at ht
  have hcovt := (h.slots t (by simp [hslots, ht])).wellFormed.excluded_covered v hv
  rcases ht with ht | rfl | ht
  · simp [h.covers_eq_false hslots hcov (List.mem_append_left _ ht)] at hcovt
  · exact hv
  · simp [h.covers_eq_false hslots hcov (List.mem_append_right _ ht)] at hcovt

/-- What follows the base name in content that answers the outstanding Interest of a slot is
admitted by the partition of that slot. -/
theorem answer_admitted (h : d.Sound) (hs : s ∈ d.slots) (hi : s.outstanding = some i)
    (hacc : i.accepts d.trust c = true) {x : Component}
    (hx : c.name.component? d.basename.length = some x) :
    d.basename.components <+: c.name.components ∧ s.partition.Admits x := by
  have hslot := h.slots s hs
  have hok := hslot.interest_eq_ok hi
  obtain ⟨hbegins, -, hadmits⟩ := (hslot.wellFormed.accepts_iff hok hx).1 hacc
  exact ⟨hbegins, hadmits⟩

theorem answer_version (h : d.Sound) (hs : s ∈ d.slots) (hi : s.outstanding = some i)
    (hacc : i.accepts d.trust c = true)
    (hv : Version.ofNameAt c.name d.basename.length = .ok v) :
    s.partition.covers v = true ∧ v ∉ s.partition.excluded := by
  rw [Version.ofNameAt] at hv
  split at hv
  · rename_i x hx
    obtain ⟨hr, rfl⟩ := Version.toComponent_of_ofComponent hv
    obtain ⟨-, hadmits⟩ := h.answer_admitted hs hi hacc hx
    exact ((h.slots s hs).wellFormed.admits_toComponent_iff hr).1 hadmits
  · cases hv

theorem map (h : d.Sound) (f : Slot → Slot) {d' : Discovery}
    (hslots : d'.slots = d.slots.map f) (hbase : d'.basename = d.basename)
    (hconfig : d'.config = d.config) (hpart : ∀ s ∈ d.slots, (f s).partition = s.partition)
    (hsound : ∀ s ∈ d.slots, (f s).Sound d.basename d.config)
    (hquiet : d'.isRunning = false → ∀ s ∈ d.slots, (f s).outstanding = none) : d'.Sound where
  config_valid := hconfig ▸ h.config_valid
  tiles := by
    rw [hslots, map_partition hpart]
    exact h.tiles
  slots s hs := by
    rw [hslots] at hs
    obtain ⟨t, ht, rfl⟩ := List.mem_map.1 hs
    rw [hbase, hconfig]
    exact hsound t ht
  quiet hrun s hs := by
    rw [hslots] at hs
    obtain ⟨t, ht, rfl⟩ := List.mem_map.1 hs
    exact hquiet hrun t ht

/-- One slot may give way to sound slots that tile its partition. -/
theorem replace (h : d.Sound) (hslots : d.slots = pre ++ s :: post) {news : List Slot}
    {d' : Discovery} (hslots' : d'.slots = pre ++ news ++ post) (hbase : d'.basename = d.basename)
    (hconfig : d'.config = d.config)
    (htiles : Tiles s.partition.lower.ticks.toNat (s.partition.upper.ticks.toNat + 1)
      (news.map (·.partition)))
    (hsound : ∀ t ∈ news, t.Sound d.basename d.config) (hrun : d'.isRunning = true) :
    d'.Sound where
  config_valid := hconfig ▸ h.config_valid
  tiles := by
    have hold := h.tiles
    rw [hslots, List.map_append, List.map_cons] at hold
    rw [hslots', List.map_append, List.map_append]
    exact hold.replace htiles
  slots t ht := by
    rw [hbase, hconfig]
    rw [hslots', List.append_assoc, List.mem_append, List.mem_append] at ht
    rcases ht with ht | ht | ht
    · exact h.slots t (by simp [hslots, ht])
    · exact hsound t ht
    · exact h.slots t (by simp [hslots, ht])
  quiet hnot := by simp [hrun] at hnot

theorem replace_one (h : d.Sound) (hslots : d.slots = pre ++ s :: post) {t : Slot}
    {d' : Discovery} (hslots' : d'.slots = pre ++ t :: post) (hbase : d'.basename = d.basename)
    (hconfig : d'.config = d.config) (hlower : t.partition.lower = s.partition.lower)
    (hupper : t.partition.upper = s.partition.upper) (ht : t.Sound d.basename d.config)
    (hrun : d'.isRunning = true) : d'.Sound := by
  have hnews : d'.slots = pre ++ [t] ++ post := by simpa using hslots'
  refine h.replace hslots hnews hbase hconfig ?_ (by simpa) hrun
  rw [List.map_singleton, ← hlower, ← hupper]
  exact Partition.tiles_singleton ht.wellFormed.lower_le_upper

end Sound

section Events

variable {d : Discovery} {now : Time} {i : Interest}

theorem create_sound {basename : Name} {config : Config} {trust : Trust}
    {exclusions : List Version} {floor : Option Version} (hvalid : config.Valid)
    (hrange : ∀ v ∈ exclusions, v.InRange) :
    (create basename config trust exclusions floor).Sound := by
  have hrange' : ∀ v ∈ SortedList.ofList exclusions, v.InRange := fun v hv =>
    hrange v (SortedList.mem_ofList.1 hv)
  obtain ⟨htiles, hparts⟩ :=
    Partition.cover_sound config.maxExcludes (SortedList.pairwise_ofList exclusions) hrange'
  have htwo := hvalid.two_le_maxExcludes
  refine ⟨hvalid, ?_, ?_, ?_⟩
  · simpa [create, List.map_map, Function.comp_def] using htiles
  · intro s hs
    obtain ⟨p, hp, rfl⟩ := List.mem_map.1 hs
    obtain ⟨hwf, -, hlen⟩ := hparts p hp
    refine ⟨hwf, ?_, .inl ⟨rfl, rfl⟩⟩
    show p.excluded.length ≤ config.maxExcludes
    omega
  · intro _ s hs
    obtain ⟨p, hp, rfl⟩ := List.mem_map.1 hs
    rfl

theorem isExcluded_create {basename : Name} {config : Config} {trust : Trust}
    {exclusions : List Version} {floor : Option Version} (hvalid : config.Valid)
    (hrange : ∀ v ∈ exclusions, v.InRange) {v : Version} :
    (create basename config trust exclusions floor).isExcluded v = true ↔ v ∈ exclusions := by
  rw [(create_sound hvalid hrange).isExcluded_iff, ← SortedList.mem_ofList,
    ← Partition.cover_excluded config.maxExcludes (SortedList.ofList exclusions)]
  simp [create, List.mem_flatMap]

theorem start_eq (hphase : d.phase = .created) :
    d.start now =
      let slots := d.slots.map fun s => Slot.fresh d.basename d.config now s.partition
      ({ d with phase := .running, slots }, Slot.expressions slots) := by
  obtain ⟨hslots, hactions⟩ :=
    Slot.reissue_all d.basename d.config now d.slots
  rw [start, if_pos hphase, eachSlot]
  simp only [List.map_map, Function.comp_def, List.flatMap_map, hslots, hactions]

theorem Sound.started (h : d.Sound) (hphase : d.phase = .created) {t : Slot}
    (ht : t ∈ (d.start now).1.slots) : t.Live d.basename d.config := by
  rw [start_eq hphase] at ht
  obtain ⟨s, hs, rfl⟩ := List.mem_map.1 ht
  exact Slot.fresh_live (h.slots s hs).wellFormed

theorem start_sound (h : d.Sound) : (d.start now).1.Sound := by
  by_cases hphase : d.phase = .created
  · rw [start_eq hphase]
    exact h.map (fun s => Slot.fresh d.basename d.config now s.partition) rfl rfl rfl
      (fun s _ => Slot.fresh_partition) (fun s hs => (h.slots s hs).renew) (by simp [isRunning])
  · rwa [start, if_neg hphase]

theorem stop_eq (hphase : d.phase ≠ .stopped) :
    d.stop = ({ d with phase := .stopped, slots := d.slots.map Slot.clear },
      d.slots.flatMap Slot.withdrawal) := by
  rw [stop, if_neg hphase, eachSlot]
  simp [List.flatMap_map, Function.comp_def]

theorem stop_sound (h : d.Sound) : d.stop.1.Sound := by
  by_cases hphase : d.phase = .stopped
  · rwa [stop, if_pos hphase]
  · rw [stop_eq hphase]
    exact h.map Slot.clear rfl rfl rfl (fun s _ => rfl) (fun s hs => (h.slots s hs).clear)
      (fun _ s _ => rfl)

theorem refresh_eq (hrun : d.isRunning = true) :
    (d.refresh now).1.slots = d.slots.map (fun s => (s.refresh d.basename d.config now).1) ∧
      (d.refresh now).2 = d.slots.flatMap fun s => (s.refresh d.basename d.config now).2 := by
  simp [refresh, hrun, eachSlot, List.flatMap_map]

theorem refresh_frame (d : Discovery) (now : Time) :
    SameTask d (d.refresh now).1 ∧ (d.refresh now).1.phase = d.phase := by
  rw [refresh]
  split <;> exact ⟨⟨rfl, rfl, rfl, rfl⟩, rfl⟩

theorem refresh_sound (h : d.Sound) : (d.refresh now).1.Sound := by
  by_cases hrun : d.isRunning = true
  · obtain ⟨hsame, hphase⟩ := refresh_frame d now
    refine h.map (fun s => (s.refresh d.basename d.config now).1) (refresh_eq hrun).1
      hsame.basename hsame.config ?_ ?_ ?_
    · intro s hs
      rw [s.refresh_eq]
      split <;> simp
    · intro s hs
      rw [s.refresh_eq]
      split
      · exact (h.slots s hs).renew
      · exact h.slots s hs
    · intro hnot
      rw [isRunning, hphase] at hnot
      rw [isRunning, hnot] at hrun
      cases hrun
  · rwa [refresh, if_neg hrun]

theorem reissueAt_eq {pre post : List Slot} {s : Slot} (hslots : d.slots = pre ++ s :: post) :
    d.reissueAt pre.length now =
      let t := Slot.fresh d.basename d.config now s.partition
      ({ d with slots := pre ++ t :: post }, Slot.expressions [t]) := by
  rw [reissueAt, atSlot, hslots, getElem?_append_cons]
  simp only [Slot.reissue_eq, set_append_cons]

theorem timeout_eq {pre post : List Slot} {s : Slot} (hrun : d.isRunning = true)
    (hslots : d.slots = pre ++ s :: post) (hawait : d.slotAwaiting? i = some pre.length) :
    d.timeout now i =
      let t := Slot.fresh d.basename d.config now s.partition
      ({ d with slots := pre ++ t :: post, metrics.timeouts := d.metrics.timeouts + 1 },
        Slot.expressions [t]) := by
  rw [timeout, if_pos hrun, hawait]
  simp only
  rw [reissueAt_eq (d := { d with metrics.timeouts := d.metrics.timeouts + 1 }) hslots]

theorem timeout_sound (h : d.Sound) : (d.timeout now i).1.Sound := by
  by_cases hrun : d.isRunning = true
  · cases hawait : d.slotAwaiting? i with
    | none => simpa [timeout, hrun, hawait] using h
    | some k =>
      obtain ⟨pre, s, post, hslots, rfl, -⟩ := slotAwaiting?_eq_some hawait
      rw [timeout_eq hrun hslots hawait]
      exact h.replace_one hslots rfl rfl rfl (by simp) (by simp) (h.slot hslots).renew hrun
  · rwa [timeout, if_neg hrun]

theorem cancelled_sound (h : d.Sound) : d.cancelled.Sound :=
  ⟨h.config_valid, h.tiles, h.slots, h.quiet⟩

theorem settled_sound (h : d.Sound) : (d.settled i).1.Sound := by
  have hcounted : ({ d with metrics.expressed := d.metrics.expressed + 1 } : Discovery).Sound :=
    ⟨h.config_valid, h.tiles, h.slots, h.quiet⟩
  simp only [settled]
  split
  · exact cancelled_sound hcounted
  · split <;> exact hcounted

theorem refused_sound (h : d.Sound) : (d.refused i).Sound := by
  have hcounted : ({ d with metrics.refused := d.metrics.refused + 1 } : Discovery).Sound :=
    ⟨h.config_valid, h.tiles, h.slots, h.quiet⟩
  simp only [refused]
  split
  · rename_i k hk
    obtain ⟨pre, s, post, hslots, rfl, hs⟩ := slotAwaiting?_eq_some hk
    have hrun : d.isRunning = true := by
      cases hrun : d.isRunning with
      | true => rfl
      | false =>
        rw [h.quiet hrun s (by simp [show d.slots = _ from hslots])] at hs
        cases hs
    refine hcounted.replace_one hslots (t := s.clear) ?_ rfl rfl rfl rfl
      (hcounted.slot hslots).clear hrun
    show (d.slots.modify pre.length Slot.clear) = _
    rw [show d.slots = _ from hslots, modify_append_cons]
  · exact hcounted

end Events

end NamedContent.Discovery
