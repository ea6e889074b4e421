import NamedContent.Proofs.SoloSteps

/-! Answers to what is outstanding, if names have a fixed number of components after the base name
and more than the digest among them. Then whom a trust policy trusts does not matter, the contents
that carry a version are those with one form of name, one slot at most asks for each, and every
answer is taken in by the slot that asked. -/

namespace NamedContent.Discovery

/-- The name of the content holds the version and as many components as the configuration says. -/
def Matches (d : Discovery) (c : Content) (v : Version) : Prop :=
  d.Names c v ∧
    ∀ k, d.config.additional = some k → c.name.length + 1 = d.basename.length + k.toNat

variable {d d' : Discovery} {k : UInt64} {now : Time} {c : Content} {i j : Interest} {v : Version}
  {s : Slot} {pre post : List Slot}

theorem SameTask.matches_iff (h : SameTask d d') : d'.Matches c v ↔ d.Matches c v := by
  rw [Matches, Matches, Names, Names, h.basename, h.config]

theorem SameTask.carries_iff (h : SameTask d d') : d'.Carries c i v ↔ d.Carries c i v := by
  rw [Carries, Carries, h.basename, h.trust]

theorem outstanding_append (hslots : d.slots = pre ++ post) :
    d.outstanding = pre.filterMap (·.outstanding) ++ post.filterMap (·.outstanding) := by
  rw [outstanding, hslots, List.filterMap_append]

namespace Sound

theorem asks (h : d.Sound) (hi : i ∈ d.outstanding) : d.Asks i := by
  obtain ⟨s, hs, hout⟩ := mem_outstanding.1 hi
  exact ⟨s.partition, (h.slots s hs).interest_eq_ok hout⟩

theorem exists_component (h : d.Sound) (hk : d.config.additional = some k) (htwo : 2 ≤ k.toNat)
    (hi : i ∈ d.outstanding) {trust : Trust} (hacc : i.accepts trust c = true) :
    ∃ x, c.name.component? d.basename.length = some x := by
  obtain ⟨p, hp⟩ := h.asks hi
  obtain ⟨f, -, rfl⟩ := Partition.interest_name hp
  rw [hk] at hacc
  exact Interest.component_of_accepts htwo hacc

theorem accepts_of_accepts (h : d.Sound) (hk : d.config.additional = some k)
    (htwo : 2 ≤ k.toNat) (hi : i ∈ d.outstanding) {trust : Trust} (trust' : Trust)
    (hacc : i.accepts trust c = true) : i.accepts trust' c = true := by
  obtain ⟨x, hx⟩ := h.exists_component hk htwo hi hacc
  obtain ⟨p, hp⟩ := h.asks hi
  obtain ⟨f, -, rfl⟩ := Partition.interest_name hp
  rw [Interest.accepts_filtered_iff hx] at hacc ⊢
  exact hacc

/-- What the Interest of a slot asks for: the versions that the slot covers and has not seen, in
names of the right form. -/
theorem carries_iff (h : d.Sound) (hs : s ∈ d.slots) (hi : s.outstanding = some i) :
    d.Carries c i v ↔
      d.Matches c v ∧ s.partition.covers v = true ∧ v ∉ s.partition.excluded := by
  have hslot := h.slots s hs
  have hok := hslot.interest_eq_ok hi
  constructor
  · intro hcarries
    obtain ⟨hr, hx⟩ := Version.ofNameAt_eq_ok_iff.1 hcarries.2
    obtain ⟨-, hcount, hadmits⟩ := (hslot.wellFormed.accepts_iff hok hx).1 hcarries.1
    have hasks : d.Asks i := ⟨s.partition, hok⟩
    exact ⟨⟨hasks.names hcarries, hcount⟩,
      (hslot.wellFormed.admits_toComponent_iff hr).1 hadmits⟩
  · rintro ⟨⟨hname, hcount⟩, hcov, hnew⟩
    obtain ⟨hr, hx⟩ := Version.ofNameAt_eq_ok_iff.1 hname.ofNameAt_eq
    obtain ⟨-, tail, htail⟩ := hname
    have hadmits := (hslot.wellFormed.admits_toComponent_iff hr).2 ⟨hcov, hnew⟩
    have hbegins : d.basename.components <+: c.name.components := ⟨_, htail.symm⟩
    exact ⟨(hslot.wellFormed.accepts_iff hok hx).2 ⟨hbegins, hcount, hadmits⟩,
      Version.ofNameAt_eq_ok_iff.2 ⟨hr, hx⟩⟩

theorem not_carries_of_carries (h : d.Sound) (hslots : d.slots = pre ++ s :: post)
    (hi : s.outstanding = some i) (hcarries : d.Carries c i v) {t : Slot} (ht : t ∈ pre ++ post)
    (hj : t.outstanding = some j) : ¬ d.Carries c j v := by
  intro hother
  obtain ⟨-, hcov, -⟩ := (h.carries_iff (by simp [hslots]) hi).1 hcarries
  have hmem : t ∈ d.slots := by
    rw [List.mem_append] at ht
    rw [hslots, List.mem_append, List.mem_cons]
    exact ht.imp_right .inr
  obtain ⟨-, hcovt, -⟩ := (h.carries_iff hmem hj).1 hother
  rw [h.covers_eq_false hslots hcov ht] at hcovt
  cases hcovt

theorem carries_unique (h : d.Sound) (hi : i ∈ d.outstanding) (hj : j ∈ d.outstanding)
    (hcarries : d.Carries c i v) (hother : d.Carries c j v) : i = j := by
  obtain ⟨s, hs, hout⟩ := mem_outstanding.1 hi
  obtain ⟨t, ht, hout'⟩ := mem_outstanding.1 hj
  obtain ⟨pre, post, hslots⟩ := List.append_of_mem hs
  rw [hslots, List.mem_append, List.mem_cons] at ht
  rcases ht with ht | rfl | ht
  · exact absurd hother (h.not_carries_of_carries hslots hout hcarries (List.mem_append_left _ ht)
      hout')
  · exact Option.some.inj (hout.symm.trans hout')
  · exact absurd hother (h.not_carries_of_carries hslots hout hcarries
      (List.mem_append_right _ ht) hout')

theorem exists_carries (h : d.Sound) (hlive : ∀ s ∈ d.slots, s.outstanding ≠ none)
    (hmatches : d.Matches c v) (hnew : d.isExcluded v = false) :
    ∃ i ∈ d.outstanding, d.Carries c i v := by
  obtain ⟨s, hs, hcov⟩ := h.exists_covers hmatches.1.1
  obtain ⟨i, hi⟩ := Option.ne_none_iff_exists'.1 (hlive s hs)
  refine ⟨i, mem_outstanding.2 ⟨s, hs, hi⟩, (h.carries_iff hs hi).2 ⟨hmatches, hcov, ?_⟩⟩
  rw [← h.isExcluded_iff_of_covers hs hcov, hnew]
  exact Bool.false_ne_true

theorem keep_of_outstanding (h : d.Sound) (hi : i ∈ d.outstanding) :
    (d.settled i).2 = .keep := by
  obtain ⟨pre, s, post, -, -, hask⟩ := exists_awaiting hi
  have hcounted : ({ d with metrics.expressed := d.metrics.expressed + 1 } :
      Discovery).slotAwaiting? i = some pre.length := hask
  have hrunning : ({ d with metrics.expressed := d.metrics.expressed + 1 } :
      Discovery).isRunning = true := h.isRunning_of_outstanding hi
  simp [settled, hcounted, hrunning]

theorem arrive_answer (now : Time) (h : d.Sound) (hslots : d.slots = pre ++ s :: post)
    (hs : s.outstanding = some i) (hask : d.slotAwaiting? i = some pre.length)
    (hacc : i.accepts d.trust c = true) {x : Component}
    (hx : c.name.component? d.basename.length = some x) :
    ∃ news : List Slot, (d.arrive now c i).discovery.slots = pre ++ news ++ post ∧
      (d.arrive now c i).actions = Slot.expressions news ∧
      ∀ t ∈ news, t.outstanding ≠ none := by
  have hlive : ∀ t : Slot, t.Live d.basename d.config → t.outstanding ≠ none := by
    rintro t ⟨j, since, hj, -⟩
    simp [hj]
  have hmem : s ∈ d.slots := by simp [hslots]
  have hrun := h.isRunning_of_outstanding (mem_outstanding.2 ⟨s, hmem, hs⟩)
  have hwf := (h.slot hslots).wellFormed
  cases hv : Version.ofComponent x with
  | error fault =>
    have hforeign : Version.isComponent x = false := by simp [Version.isComponent, hv]
    obtain ⟨-, hadmits⟩ := h.answer_admitted hmem hs hacc hx
    rw [arrive_stray_eq hrun hslots hask hacc hx hforeign]
    refine ⟨[_], (List.append_cons _ _ _), rfl, ?_⟩
    simpa using hlive _ (Slot.fresh_live (hwf.insert_stray hadmits hforeign))
  | ok v =>
    have hname := Version.ofNameAt_of_component? hx hv
    obtain ⟨hcov, -⟩ := h.answer_version hmem hs hacc hname
    rw [arrive_version_eq h hrun hslots hs hask hacc hname]
    refine ⟨_, grown_slots, rfl, fun t ht => hlive t ?_⟩
    obtain ⟨q, hq, rfl⟩ := List.mem_map.1 ht
    exact Slot.fresh_live ((hwf.insert_version hcov).of_mem_parts hq)

end Sound

end NamedContent.Discovery
