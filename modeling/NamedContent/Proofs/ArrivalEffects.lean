import NamedContent.Proofs.Arrival

/-! What an arrival leaves: the discovery stays sound and keeps its task, its slots are live, it
excludes what it excluded and the version that has arrived, and delivers just a version that is new
and not below the floor. -/

namespace NamedContent.Discovery

variable {d : Discovery} {now : Time} {c : Content} {i : Interest}

section Grown

variable {pre post : List Slot} {s : Slot} {v : Version}

theorem grown_slots : (d.grown now pre s post v).slots =
    pre ++ d.renewed now s.partition v ++ post := rfl

theorem renewed_partitions (now : Time) (p : Partition) :
    (d.renewed now p v).map (·.partition) = (p.insert v).parts d.config.maxExcludes := by
  simp [renewed, Function.comp_def]

theorem grown_frame :
    SameTask d (d.grown now pre s post v) ∧ (d.grown now pre s post v).phase = d.phase := by
  obtain ⟨m, hm, -⟩ := recordVersion_eq d v
  rw [grown, hm]
  exact ⟨⟨rfl, rfl, rfl, rfl⟩, rfl⟩

theorem renewed_sound (hs : s.Sound d.basename d.config) (hvalid : d.config.Valid)
    (hcov : s.partition.covers v = true) (hnew : v ∉ s.partition.excluded) :
    ∀ t ∈ d.renewed now s.partition v, t.Sound d.basename d.config := by
  intro t ht
  obtain ⟨q, hq, rfl⟩ := List.mem_map.1 ht
  have hwf := hs.wellFormed.insert_version hcov
  have htwo := hvalid.two_le_maxExcludes
  have hlen : (s.partition.insert v).excluded.length ≤ d.config.maxExcludes + 1 := by
    have hold := hs.length_le
    have hinsert := SortedList.length_insert hnew
    show (SortedList.insert v s.partition.excluded).length ≤ _
    omega
  exact Slot.fresh_sound (hwf.of_mem_parts hq)
    (hwf.ordered.length_le_of_mem_parts (by omega) hlen hq)

theorem grown_sound (h : d.Sound) (hrun : d.isRunning = true)
    (hslots : d.slots = pre ++ s :: post) (hcov : s.partition.covers v = true)
    (hnew : v ∉ s.partition.excluded) : (d.grown now pre s post v).Sound := by
  obtain ⟨hsame, hphase⟩ := @grown_frame d now pre post s v
  have hwf := (h.slot hslots).wellFormed.insert_version hcov
  refine h.replace hslots grown_slots hsame.basename hsame.config ?_
    (renewed_sound (h.slot hslots) h.config_valid hcov hnew) (by rw [isRunning, hphase]; exact hrun)
  rw [renewed_partitions]
  exact hwf.tiles_parts

theorem isExcluded_grown (h : d.Sound) (hrun : d.isRunning = true)
    (hslots : d.slots = pre ++ s :: post) (hcov : s.partition.covers v = true)
    (hnew : v ∉ s.partition.excluded) (u : Version) :
    (d.grown now pre s post v).isExcluded u = true ↔ d.isExcluded u = true ∨ u = v := by
  have hpart : (∃ t ∈ d.renewed now s.partition v, u ∈ t.partition.excluded) ↔
      u ∈ s.partition.excluded ∨ u = v := by
    have hmem := @Partition.mem_excluded_parts (s.partition.insert v) d.config.maxExcludes u
    rw [← renewed_partitions now] at hmem
    simp only [List.mem_map, exists_exists_and_eq_and] at hmem
    rw [hmem, or_comm]
    exact SortedList.mem_insert
  rw [(grown_sound h hrun hslots hcov hnew).isExcluded_iff, h.isExcluded_iff, grown_slots, hslots]
  simp only [List.mem_append, List.mem_cons, or_and_right, exists_or, exists_eq_left, hpart]
  constructor
  · rintro ((hu | hu | hu) | hu) <;> simp [hu]
  · rintro ((hu | hu | hu) | hu) <;> simp [hu]

end Grown

/-- The content answers the Interest and names the version. -/
def Carries (d : Discovery) (c : Content) (i : Interest) (v : Version) : Prop :=
  i.accepts d.trust c = true ∧ Version.ofNameAt c.name d.basename.length = .ok v

theorem Carries.unique {u v : Version} (hu : d.Carries c i u) (hv : d.Carries c i v) : u = v := by
  have heq := hu.2.symm.trans hv.2
  exact Except.ok.inj heq

theorem not_carries_of_mismatch (h : i.accepts d.trust c = false) (v : Version) :
    ¬ d.Carries c i v := by
  rintro ⟨hacc, -⟩
  rw [h] at hacc
  cases hacc

theorem not_carries_of_ended (h : c.name.component? d.basename.length = none) (v : Version) :
    ¬ d.Carries c i v := by
  rintro ⟨-, hv⟩
  have hx := (Version.ofNameAt_eq_ok_iff.1 hv).2
  rw [h] at hx
  cases hx

theorem not_carries_of_stray {x : Component}
    (hx : c.name.component? d.basename.length = some x) (h : Version.isComponent x = false)
    (v : Version) : ¬ d.Carries c i v := by
  rintro ⟨-, hv⟩
  obtain ⟨hr, hv⟩ := Version.ofNameAt_eq_ok_iff.1 hv
  rw [hx] at hv
  exact Version.toComponent_ne_of_isComponent_eq_false h hr (Option.some.inj hv).symm

def Wants (d : Discovery) (v : Version) : Prop := ∀ f, d.floor = some f → ¬ v < f

theorem recordVersion_delivers {v : Version} : (d.recordVersion v).2 = true ↔ d.Wants v := by
  rw [recordVersion, Wants]
  cases d.floor with
  | none => simp
  | some f =>
    by_cases hlt : v < f <;> simp [hlt]

namespace Taken

variable {a : Absorbed}

theorem sound (ht : Taken d now c i a) (h : d.Sound) (hrun : d.isRunning = true) :
    a.discovery.Sound := by
  cases ht with
  | passedOver => exact h
  | duplicate => exact ⟨h.config_valid, h.tiles, h.slots, h.quiet⟩
  | unasked _ _ _ hslots hcov hnew => exact grown_sound h hrun hslots hcov hnew
  | mismatch hslots =>
    exact h.replace_one hslots rfl rfl rfl (by simp) (by simp) (h.slot hslots).renew hrun
  | ended hslots => exact h.replace_one hslots rfl rfl rfl rfl rfl (h.slot hslots).clear hrun
  | stray hslots hs hacc hx hforeign =>
    obtain ⟨-, hadmits⟩ := h.answer_admitted (by simp [hslots]) hs hacc hx
    have hslot := h.slot hslots
    have hstray := hslot.wellFormed.insert_stray hadmits hforeign
    exact h.replace_one hslots rfl rfl rfl (by simp [Partition.insertStray])
      (by simp [Partition.insertStray]) (Slot.fresh_sound hstray hslot.length_le) hrun
  | version hslots _ _ _ hcov hnew => exact grown_sound h hrun hslots hcov hnew

theorem live (ht : Taken d now c i a) (h : d.Sound) {t : Slot} (hmem : t ∈ a.discovery.slots) :
    t ∈ d.slots ∨ t.Live d.basename d.config ∨
      ∃ s ∈ d.slots, t = s.clear ∧ s.outstanding = some i ∧ i.accepts d.trust c = true ∧
        c.name.component? d.basename.length = none := by
  have hone : ∀ {pre post : List Slot} {s u : Slot}, d.slots = pre ++ s :: post →
      t ∈ pre ++ u :: post → t ∈ d.slots ∨ t = u := by
    intro pre post s u hslots hmem
    rw [hslots]
    simp only [List.mem_append, List.mem_cons] at hmem ⊢
    rcases hmem with hmem | hmem | hmem <;> simp [hmem]
  have hgrown : ∀ {pre post : List Slot} {s : Slot} {v : Version}, d.slots = pre ++ s :: post →
      s.partition.covers v = true → t ∈ (d.grown now pre s post v).slots →
      t ∈ d.slots ∨ t.Live d.basename d.config := by
    intro pre post s v hslots hcov hmem
    have hwf := (h.slot hslots).wellFormed.insert_version hcov
    rw [grown_slots, List.append_assoc, List.mem_append, List.mem_append] at hmem
    rcases hmem with hmem | hmem | hmem
    · exact .inl (by simp [hslots, hmem])
    · obtain ⟨q, hq, rfl⟩ := List.mem_map.1 hmem
      exact .inr (Slot.fresh_live (hwf.of_mem_parts hq))
    · exact .inl (by simp [hslots, hmem])
  cases ht with
  | passedOver => exact .inl hmem
  | duplicate => exact .inl hmem
  | unasked _ _ _ hslots hcov => exact (hgrown hslots hcov hmem).imp_right .inl
  | mismatch hslots =>
    refine (hone hslots hmem).imp_right fun hfresh => .inl ?_
    rw [hfresh]
    exact Slot.fresh_live (h.slot hslots).wellFormed
  | @ended pre post s hslots hs hacc hend =>
    exact (hone hslots hmem).imp_right fun ht => .inr ⟨s, by simp [hslots], ht, hs, hacc, hend⟩
  | stray hslots hs hacc hx hforeign =>
    refine (hone hslots hmem).imp_right fun hfresh => .inl ?_
    obtain ⟨-, hadmits⟩ := h.answer_admitted (by simp [hslots]) hs hacc hx
    rw [hfresh]
    exact Slot.fresh_live ((h.slot hslots).wellFormed.insert_stray hadmits hforeign)
  | version hslots _ _ _ hcov => exact (hgrown hslots hcov hmem).imp_right .inl

theorem frame (ht : Taken d now c i a) :
    SameTask d a.discovery ∧ a.discovery.phase = d.phase := by
  cases ht with
  | passedOver => exact ⟨.refl d, rfl⟩
  | duplicate => exact ⟨⟨rfl, rfl, rfl, rfl⟩, rfl⟩
  | unasked => exact grown_frame
  | mismatch => exact ⟨⟨rfl, rfl, rfl, rfl⟩, rfl⟩
  | ended => exact ⟨⟨rfl, rfl, rfl, rfl⟩, rfl⟩
  | stray => exact ⟨⟨rfl, rfl, rfl, rfl⟩, rfl⟩
  | version => exact grown_frame

/-- Just the version that the content names, if any, is excluded from then on. -/
theorem isExcluded_iff (ht : Taken d now c i a) (h : d.Sound) (hrun : d.isRunning = true)
    (u : Version) :
    a.discovery.isExcluded u = true ↔ d.isExcluded u = true ∨ d.Carries c i u := by
  have hcarries : ∀ {v}, d.Carries c i v → (u = v ↔ d.Carries c i u) := fun hv =>
    ⟨fun hu => hu ▸ hv, fun hu => hu.unique hv⟩
  cases ht with
  | passedOver hask hnone =>
    have hnot : ¬ d.Carries c i u := fun hu => hnone hu.1 u hu.2
    simp [hnot]
  | duplicate hask hacc hv hold =>
    refine ⟨.inl, fun hu => hu.elim id fun hu => ?_⟩
    rw [hu.unique ⟨hacc, hv⟩]
    exact hold
  | unasked hask hacc hv hslots hcov hnew =>
    rw [isExcluded_grown h hrun hslots hcov hnew, hcarries ⟨hacc, hv⟩]
  | mismatch hslots hs hacc =>
    rw [isExcluded_replace_one hslots rfl (by simp) (by simp) (by simp)]
    simp [not_carries_of_mismatch hacc]
  | @ended pre post s hslots hs hacc hend =>
    rw [isExcluded_replace_one hslots (t := s.clear) rfl rfl rfl rfl]
    simp [not_carries_of_ended hend]
  | stray hslots hs hacc hx hforeign =>
    rw [isExcluded_replace_one hslots rfl (by simp [Partition.insertStray])
      (by simp [Partition.insertStray]) (by simp [Partition.insertStray])]
    simp [not_carries_of_stray hx hforeign]
  | version hslots hs hacc hv hcov hnew =>
    rw [isExcluded_grown h hrun hslots hcov hnew, hcarries ⟨hacc, hv⟩]

theorem delivers_iff (ht : Taken d now c i a) (h : d.Sound) :
    a.delivers = true ↔ ∃ v, d.Carries c i v ∧ d.isExcluded v = false ∧ d.Wants v := by
  have hgrown : ∀ {pre post : List Slot} {s : Slot} {v : Version}, d.slots = pre ++ s :: post →
      s.partition.covers v = true → v ∉ s.partition.excluded → d.Carries c i v →
      ((d.recordVersion v).2 = true ↔
        ∃ v, d.Carries c i v ∧ d.isExcluded v = false ∧ d.Wants v) := by
    intro pre post s v hslots hcov hnew hcarries
    have hex : d.isExcluded v = false := by
      rw [← Bool.not_eq_true, h.isExcluded_iff_of_covers (by simp [hslots]) hcov]
      exact hnew
    rw [recordVersion_delivers]
    constructor
    · exact fun hv => ⟨v, hcarries, hex, hv⟩
    · rintro ⟨u, hu, -, hwants⟩
      rwa [hcarries.unique hu]
  cases ht with
  | passedOver hask hnone =>
    have hnot : ∀ v, ¬ d.Carries c i v := fun v hv => hnone hv.1 v hv.2
    simp [hnot]
  | @duplicate v hask hacc hv hold =>
    refine iff_of_false Bool.false_ne_true ?_
    rintro ⟨u, hu, hnew, -⟩
    rw [hu.unique ⟨hacc, hv⟩, hold] at hnew
    cases hnew
  | unasked hask hacc hv hslots hcov hnew => exact hgrown hslots hcov hnew ⟨hacc, hv⟩
  | mismatch hslots hs hacc => simp [not_carries_of_mismatch hacc]
  | ended hslots hs hacc hend => simp [not_carries_of_ended hend]
  | stray hslots hs hacc hx hforeign => simp [not_carries_of_stray hx hforeign]
  | version hslots hs hacc hv hcov hnew => exact hgrown hslots hcov hnew ⟨hacc, hv⟩

end Taken

end NamedContent.Discovery
