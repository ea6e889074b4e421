import NamedContent.Proofs.SoloSteps
import NamedContent.Proofs.Agreement

/-! Interests of the past. As a discovery goes on its partitions only become narrower: the Interest
of one that has been is that of a partition which each slot of today lies within or apart from. So
the Interest of a partition that has just become narrower is one that never was before. -/

namespace NamedContent

namespace Partition

/-- The partition lies between the bounds of another one and admits nothing that that does not. -/
structure Within (q p : Partition) : Prop where
  lower_le : p.lower ≤ q.lower
  le_upper : q.upper ≤ p.upper
  admits : ∀ x, q.Admits x → p.Admits x

def Apart (p q : Partition) : Prop := p.upper < q.lower ∨ q.upper < p.lower

theorem Within.refl (p : Partition) : p.Within p :=
  ⟨Version.le_iff.2 (Nat.le_refl _), Version.le_iff.2 (Nat.le_refl _), fun _ => id⟩

section Order

variable {p q r : Partition}

theorem Within.trans (h : r.Within q) (h' : q.Within p) : r.Within p := by
  have hlower := h.lower_le
  have hlower' := h'.lower_le
  have hupper := h.le_upper
  have hupper' := h'.le_upper
  rw [Version.le_iff] at hlower hlower' hupper hupper'
  refine ⟨?_, ?_, fun x hx => h'.admits x (h.admits x hx)⟩
  · rw [Version.le_iff]
    omega
  · rw [Version.le_iff]
    omega

theorem Apart.mono (h : p.Apart q) (hr : r.Within q) : p.Apart r := by
  have hlower := hr.lower_le
  have hupper := hr.le_upper
  rw [Version.le_iff] at hlower hupper
  rcases h with h | h
  · refine .inl ?_
    rw [Version.lt_iff] at h ⊢
    omega
  · refine .inr ?_
    rw [Version.lt_iff] at h ⊢
    omega

end Order

theorem insert_within (p : Partition) (v : Version) : (p.insert v).Within p := by
  obtain ⟨hlower, hupper, -⟩ := Within.refl p
  refine ⟨hlower, hupper, fun x hx => ⟨hx.1, fun hold => hx.2.1 ?_, hx.2.2⟩⟩
  obtain ⟨u, hu, rfl⟩ := List.mem_map.1 hold
  exact List.mem_map_of_mem (SortedList.mem_insert.2 (.inr hu))

theorem insertStray_within (p : Partition) (x : Component) : (p.insertStray x).Within p := by
  obtain ⟨hlower, hupper, -⟩ := Within.refl p
  exact ⟨hlower, hupper,
    fun y hy => ⟨hy.1, hy.2.1, fun hold => hy.2.2 (SortedList.mem_insert.2 (.inr hold))⟩⟩

theorem not_admits_insert (p : Partition) (v : Version) : ¬ (p.insert v).Admits v.toComponent :=
  fun h => h.2.1 (List.mem_map_of_mem (SortedList.mem_insert.2 (.inl rfl)))

theorem not_admits_insertStray (p : Partition) (x : Component) : ¬ (p.insertStray x).Admits x :=
  fun h => h.2.2 (SortedList.mem_insert.2 (.inl rfl))

namespace WellFormed

variable {p q l r : Partition} {basename : Name} {config : Config} {i : Interest}

theorem left_within (h : p.WellFormed) (hs : p.split? = some (l, r)) : l.Within p := by
  have hwf := h.split_left hs
  obtain ⟨pivot, u, hpivot, hu, -, rfl, -⟩ := split?_eq_some_iff.1 hs
  have hcov := h.pivot_covered hpivot
  have hpr := h.inRange_of_covers hcov
  have hprev := Version.prev?_eq_some_iff.1 hu
  have hnext : u.next? = some pivot := Version.next?_eq_some_iff.2 ⟨hprev, hpr⟩
  have hhigh := Version.le_iff.1 (covers_iff.1 hcov).2
  have hbelow := ((h.between_toComponent_iff hpr).2 hcov).2
  refine ⟨(Within.refl p).lower_le, Version.le_iff.2 ?_, ?_⟩
  · show u.ticks.toNat ≤ p.upper.ticks.toNat
    omega
  · rintro x ⟨⟨hlow, hlt⟩, hexcluded, hstrays⟩
    rw [above_eq hnext] at hlt
    refine ⟨⟨hlow, Bytes.lt_trans hlt hbelow⟩, fun hold => hexcluded ?_, fun hold => hstrays ?_⟩
    · obtain ⟨v, hv, rfl⟩ := List.mem_map.1 hold
      have hvr := h.inRange_of_covers (h.excluded_covered v hv)
      rw [Version.toComponent_lt_iff hvr hpr] at hlt
      exact List.mem_map_of_mem (List.mem_filter.2 ⟨hv, decide_eq_true hlt⟩)
    · exact List.mem_filter.2 ⟨hold, decide_eq_true hlt⟩

theorem right_within (h : p.WellFormed) (hs : p.split? = some (l, r)) : r.Within p := by
  have hwf := h.split_right hs
  obtain ⟨pivot, u, hpivot, hu, hle, -, rfl⟩ := split?_eq_some_iff.1 hs
  have hcov := h.pivot_covered hpivot
  have hpr := h.inRange_of_covers hcov
  have hprev := Version.prev?_eq_some_iff.1 hu
  have hlow := Version.le_iff.1 (covers_iff.1 hcov).1
  have hur : u.InRange := Version.inRange_iff.2 (by
    have := Version.inRange_iff.1 hpr
    omega)
  have habove : p.below < u.toComponent := (h.below_lt_toComponent_iff hur).2 (by
    rw [Version.lt_iff] at hle
    rw [Version.le_iff]
    omega)
  refine ⟨(covers_iff.1 hcov).1, (Within.refl p).le_upper, ?_⟩
  rintro x ⟨⟨hlt, hhigh⟩, hexcluded, hstrays⟩
  rw [below_eq hu] at hlt
  refine ⟨⟨Bytes.lt_trans habove hlt, hhigh⟩, fun hold => hexcluded ?_, fun hold => hstrays ?_⟩
  · obtain ⟨v, hv, rfl⟩ := List.mem_map.1 hold
    have hvr := h.inRange_of_covers (h.excluded_covered v hv)
    rw [Version.toComponent_lt_iff hur hvr, Version.lt_iff] at hlt
    refine List.mem_map_of_mem (List.mem_filter.2 ⟨hv, ?_⟩)
    rw [Bool.not_eq_true', decide_eq_false_iff_not, Version.lt_iff]
    omega
  · exact List.mem_filter.2 ⟨hold, decide_eq_true hlt⟩

theorem within_of_mem_parts (h : p.WellFormed) {maxExcludes : Nat}
    (hq : q ∈ p.parts maxExcludes) : q.Within p :=
  forall_mem_parts (P := (·.Within p)) (.refl p)
    (fun _ _ hs => ⟨h.left_within hs, h.right_within hs⟩) q hq

theorem admits_iff_of_interest_eq (hp : p.WellFormed) (hq : q.WellFormed)
    (hi : p.interest basename config = .ok i) (hj : q.interest basename config = .ok i)
    (x : Component) : p.Admits x ↔ q.Admits x := by
  obtain ⟨f, -, hadmits, hok⟩ := hp.interest_eq_ok basename config
  obtain ⟨g, -, hadmits', hok'⟩ := hq.interest_eq_ok basename config
  have hsame : ({ name := basename, additional := config.additional, exclude := some f } :
      Interest) = { name := basename, additional := config.additional, exclude := some g } :=
    Except.ok.inj ((hok.symm.trans hi).trans (hj.symm.trans hok'))
  obtain rfl : f = g := by simpa using hsame
  rw [← hadmits, hadmits']

end WellFormed

structure Narrower (q p : Partition) : Prop where
  within : q.Within p
  lost : ∃ x, p.Admits x ∧ ¬ q.Admits x

end Partition

namespace Discovery

open NamedContent.Partition (Within Apart Narrower)

/-- The Interest is that of a partition which each slot lies within or apart from. -/
def Past (d : Discovery) (j : Interest) : Prop :=
  ∃ p : Partition, p.WellFormed ∧ p.interest d.basename d.config = .ok j ∧
    ∀ s ∈ d.slots, p.Apart s.partition ∨ s.partition.Within p

variable {d d' : Discovery} {pre post news : List Slot} {s t : Slot} {i j : Interest}

theorem Sound.past_of_outstanding (h : d.Sound) (hi : i ∈ d.outstanding) : d.Past i := by
  obtain ⟨s, hs, hout⟩ := mem_outstanding.1 hi
  have hslot := h.slots s hs
  refine ⟨s.partition, hslot.wellFormed, hslot.interest_eq_ok hout, fun t ht => ?_⟩
  obtain ⟨pre, post, hslots⟩ := List.append_of_mem hs
  have hordered := h.tiles.pairwise
  rw [hslots, List.map_append, List.map_cons, List.pairwise_append, List.pairwise_cons] at hordered
  rw [hslots, List.mem_append, List.mem_cons] at ht
  rcases ht with ht | rfl | ht
  · exact .inl (.inr (hordered.2.2 _ (List.mem_map_of_mem ht) _ List.mem_cons_self))
  · exact .inr (.refl _)
  · exact .inl (.inl (hordered.2.1.1 _ (List.mem_map_of_mem ht)))

theorem Past.of_partitions (h : d.Past j) (hsame : SameTask d d')
    (hparts : d'.slots.map (·.partition) = d.slots.map (·.partition)) : d'.Past j := by
  obtain ⟨p, hp, hj, hslots⟩ := h
  refine ⟨p, hp, by rwa [hsame.basename, hsame.config], fun s hs => ?_⟩
  have hmem : s.partition ∈ d.slots.map (·.partition) := hparts ▸ List.mem_map_of_mem hs
  obtain ⟨t, ht, heq⟩ := List.mem_map.1 hmem
  rw [← heq]
  exact hslots t ht

theorem Past.replace (h : d.Past j) (hslots : d.slots = pre ++ s :: post)
    (hslots' : d'.slots = pre ++ news ++ post) (hsame : SameTask d d')
    (hwithin : ∀ t ∈ news, t.partition.Within s.partition) : d'.Past j := by
  obtain ⟨p, hp, hj, hall⟩ := h
  refine ⟨p, hp, by rwa [hsame.basename, hsame.config], fun t ht => ?_⟩
  rw [hslots', List.append_assoc, List.mem_append, List.mem_append] at ht
  rcases ht with ht | ht | ht
  · exact hall t (by simp [hslots, ht])
  · rcases hall s (by simp [hslots]) with hs | hs
    · exact .inl (hs.mono (hwithin t ht))
    · exact .inr ((hwithin t ht).trans hs)
  · exact hall t (by simp [hslots, ht])

theorem Past.ne (h : d.Past j) (hs : s ∈ d.slots) (ht : t.Sound d.basename d.config)
    (hi : t.outstanding = some i) (hnarrow : t.partition.Narrower s.partition) : i ≠ j := by
  obtain ⟨p, hp, hj, hall⟩ := h
  have hi := ht.interest_eq_ok hi
  obtain ⟨hwithin, x, hadmits, hlost⟩ := hnarrow
  rcases hall s hs with hapart | hs
  · rcases hapart.mono hwithin with hlt | hlt
    · exact (hp.interest_ne ht.wellFormed hlt hj hi).symm
    · exact ht.wellFormed.interest_ne hp hlt hi hj
  · rintro rfl
    exact hlost ((hp.admits_iff_of_interest_eq ht.wellFormed hj hi x).1 (hs.admits x hadmits))

section Arrival

variable {now : Time} {c : Content} {v : Version} {x : Component}

theorem renewed_narrower (hs : s.Sound d.basename d.config) (hcov : s.partition.covers v = true)
    (hnew : v ∉ s.partition.excluded) :
    ∀ t ∈ d.renewed now s.partition v, t.partition.Narrower s.partition := by
  intro t ht
  obtain ⟨q, hq, rfl⟩ := List.mem_map.1 ht
  have hr := hs.wellFormed.inRange_of_covers hcov
  have hwithin := (hs.wellFormed.insert_version hcov).within_of_mem_parts hq
  rw [Slot.fresh_partition]
  refine ⟨hwithin.trans (Partition.insert_within _ v), v.toComponent,
    (hs.wellFormed.admits_toComponent_iff hr).2 ⟨hcov, hnew⟩, fun hadmits => ?_⟩
  exact Partition.not_admits_insert _ v (hwithin.admits _ hadmits)

theorem insertStray_narrower (hadmits : s.partition.Admits x) :
    (s.partition.insertStray x).Narrower s.partition :=
  ⟨Partition.insertStray_within _ x, x, hadmits, Partition.not_admits_insertStray _ x⟩

end Arrival

end Discovery

end NamedContent
