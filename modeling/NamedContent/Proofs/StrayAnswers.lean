import NamedContent.Proofs.Answers
import NamedContent.Proofs.PastInterests
import NamedContent.Proofs.ReachableDiscoveries

/-!
What still asks for a stray that has answered. Where one partition ends and the next one begins,
both ask for the components between their two versions there, none of which is a version. A split
keeps a stray from there in both halves, but an arrival is recorded just in the partition that
asked. So a stray from the middle of a partition is asked for no more, and one from a seam may
answer once again, for the partition on the other side.
-/

namespace NamedContent

def Interest.Admits (i : Interest) (x : Component) : Prop :=
  ∀ f, i.exclude = some f → f.excludes x = false

namespace Partition

/-- One partition begins right after the other ends, and the component lies between the two
versions there. -/
structure MeetAround (l r : Partition) (x : Component) : Prop where
  adjacent : l.upper.ticks.toNat + 1 = r.lower.ticks.toNat
  above_left : l.upper.toComponent < x
  below_right : x < r.lower.toComponent

namespace WellFormed

variable {p l r : Partition} {x : Component}

theorem interest_admits_iff (h : p.WellFormed) {basename : Name} {config : Config} {i : Interest}
    (hi : p.interest basename config = .ok i) : i.Admits x ↔ p.Admits x := by
  obtain ⟨f, -, hadmits, hok⟩ := h.interest_eq_ok basename config
  obtain rfl := Except.ok.inj (hi.symm.trans hok)
  rw [← hadmits]
  exact ⟨fun hx => hx f rfl, fun hx g hg => Option.some.inj hg ▸ hx⟩

theorem admits_foreign_iff (h : p.WellFormed) (hforeign : Version.isComponent x = false) :
    p.Admits x ↔ (p.below < x ∧ x < p.above) ∧ x ∉ p.strays := by
  refine and_congr_right fun _ => and_iff_right fun hmem => ?_
  obtain ⟨v, hv, hvx⟩ := List.mem_map.1 hmem
  exact Version.toComponent_ne_of_isComponent_eq_false hforeign
    (h.inRange_of_covers (h.excluded_covered v hv)) hvx

theorem meetAround_iff (hl : l.WellFormed) (hr : r.WellFormed) (hlt : l.upper < r.lower) :
    l.MeetAround r x ↔ (l.below < x ∧ x < l.above) ∧ r.below < x ∧ x < r.above := by
  have hlr := hl.upper_inRange
  have hrr := hr.lower_inRange
  rw [Version.lt_iff] at hlt
  constructor
  · rintro ⟨hadj, habove, hbelow⟩
    have hnext : l.upper.next? = some r.lower := Version.next?_eq_some_iff.2 ⟨hadj, hrr⟩
    have hprev : r.lower.prev? = some l.upper := Version.prev?_eq_some_iff.2 hadj
    have hlow : l.below < l.upper.toComponent :=
      (hl.below_lt_toComponent_iff hlr).2 hl.lower_le_upper
    have hhigh : r.lower.toComponent < r.above :=
      (hr.toComponent_lt_above_iff hrr).2 hr.lower_le_upper
    rw [above_eq hnext, below_eq hprev]
    exact ⟨⟨Bytes.lt_trans hlow habove, hbelow⟩, habove, Bytes.lt_trans hbelow hhigh⟩
  · rintro ⟨⟨-, habove⟩, hbelow, -⟩
    rw [Version.inRange_iff] at hlr hrr
    cases hnext : l.upper.next? with
    | none =>
      have := Version.next?_eq_none_iff.1 hnext
      omega
    | some w =>
      cases hprev : r.lower.prev? with
      | none =>
        have := Version.prev?_eq_none_iff.1 hprev
        omega
      | some u =>
        obtain ⟨hw, hwr⟩ := Version.next?_eq_some_iff.1 hnext
        have hu := Version.prev?_eq_some_iff.1 hprev
        have hur : u.InRange := Version.inRange_iff.2 (by omega)
        rw [above_eq hnext] at habove
        rw [below_eq hprev] at hbelow
        -- Were there a version between the two, the component would lie on both sides of it.
        have huw := Bytes.lt_trans hbelow habove
        rw [Version.toComponent_lt_iff hur hwr, Version.lt_iff] at huw
        obtain rfl : u = l.upper := Version.eq_iff.2 (by omega)
        obtain rfl : w = r.lower := Version.eq_iff.2 (by omega)
        exact ⟨hw, hbelow, habove⟩

end WellFormed

theorem MeetAround.upper_lt_lower {l r : Partition} {x : Component} (h : l.MeetAround r x) :
    l.upper < r.lower := by
  have hadj := h.adjacent
  rw [Version.lt_iff]
  omega

theorem MeetAround.not_both {l p r : Partition} {x : Component} (hp : p.WellFormed)
    (hl : l.MeetAround p x) (hr : p.MeetAround r x) : False := by
  have hlt := Bytes.lt_trans hr.above_left hl.below_right
  have hle := hp.lower_le_upper
  rw [Version.toComponent_lt_iff hp.upper_inRange hp.lower_inRange, Version.lt_iff] at hlt
  rw [Version.le_iff] at hle
  omega

end Partition

namespace Discovery

open NamedContent.Partition (MeetAround)

variable {d : Discovery} {now : Time} {c : Content} {i j : Interest} {s t : Slot}
  {pre post : List Slot} {x : Component}

/-- The two slots share a seam, and the component lies there. -/
def AcrossSeam (s t : Slot) (x : Component) : Prop :=
  s.partition.MeetAround t.partition x ∨ t.partition.MeetAround s.partition x

namespace Sound

theorem eq_of_covers (h : d.Sound) (hs : s ∈ d.slots) (ht : t ∈ d.slots) {v : Version}
    (hsv : s.partition.covers v = true) (htv : t.partition.covers v = true) : s = t := by
  obtain ⟨pre, post, hslots⟩ := List.append_of_mem hs
  rcases mem_append_cons.1 (hslots ▸ ht) with rfl | hbeside
  · rfl
  · rw [h.covers_eq_false hslots hsv hbeside] at htv
    cases htv

theorem between_of_acrossSeam (h : d.Sound) (hs : s ∈ d.slots) (ht : t ∈ d.slots)
    (hseam : AcrossSeam s t x) : t.partition.below < x ∧ x < t.partition.above := by
  have hswf := (h.slots s hs).wellFormed
  have htwf := (h.slots t ht).wellFormed
  rcases hseam with hst | hts
  · exact ((hswf.meetAround_iff htwf hst.upper_lt_lower).1 hst).2
  · exact ((htwf.meetAround_iff hswf hts.upper_lt_lower).1 hts).1

theorem acrossSeam_of_between (h : d.Sound) (hslots : d.slots = pre ++ s :: post)
    (ht : t ∈ pre ++ post) (hsx : s.partition.below < x ∧ x < s.partition.above)
    (htx : t.partition.below < x ∧ x < t.partition.above) : AcrossSeam s t x := by
  have hordered := List.pairwise_map.1 h.tiles.pairwise
  rw [hslots, List.pairwise_append, List.pairwise_cons] at hordered
  obtain ⟨-, ⟨hafter, -⟩, hbefore⟩ := hordered
  have hswf := (h.slot hslots).wellFormed
  have htwf := (h.slots t (hslots ▸ mem_append_cons.2 (.inr ht))).wellFormed
  rcases List.mem_append.1 ht with ht | ht
  · exact .inr ((htwf.meetAround_iff hswf (hbefore t ht s List.mem_cons_self)).2 ⟨htx, hsx⟩)
  · exact .inl ((hswf.meetAround_iff htwf (hafter t ht)).2 ⟨hsx, htx⟩)

theorem acrossSeam_unique (h : d.Sound) {u : Slot} (hs : s ∈ d.slots) (ht : t ∈ d.slots)
    (hu : u ∈ d.slots) (hst : AcrossSeam s t x) (hsu : AcrossSeam s u x) : t = u := by
  have hwf := (h.slots s hs).wellFormed
  have htle := (h.slots t ht).wellFormed.lower_le_upper
  have hule := (h.slots u hu).wellFormed.lower_le_upper
  rw [Version.le_iff] at htle hule
  rcases hst with hst | hts
  · rcases hsu with hsu | hus
    · have hadj := hst.adjacent
      have hadj' := hsu.adjacent
      refine h.eq_of_covers ht hu (v := t.partition.lower) ?_ ?_
      · simp only [Partition.covers_iff, Version.le_iff]
        omega
      · simp only [Partition.covers_iff, Version.le_iff]
        omega
    · exact (hus.not_both hwf hst).elim
  · rcases hsu with hsu | hus
    · exact (hts.not_both hwf hsu).elim
    · have hadj := hts.adjacent
      have hadj' := hus.adjacent
      refine h.eq_of_covers ht hu (v := t.partition.upper) ?_ ?_
      · simp only [Partition.covers_iff, Version.le_iff]
        omega
      · simp only [Partition.covers_iff, Version.le_iff]
        omega

/-- Once the slot that asked has recorded the stray, what is outstanding asks for it across a
seam or not at all. -/
theorem admits_stray_iff (h : d.Sound) (hslots : d.slots = pre ++ s :: post)
    {d' : Discovery} (hslots' : d'.slots =
      pre ++ Slot.fresh d.basename d.config now (s.partition.insertStray x) :: post)
    (hadmits : s.partition.Admits x) (hforeign : Version.isComponent x = false)
    (hj : j ∈ d'.outstanding) :
    j.Admits x ↔ ∃ t ∈ d.slots, t.outstanding = some j ∧ AcrossSeam s t x ∧
      x ∉ t.partition.strays := by
  have hs := h.slot hslots
  constructor
  · intro hjx
    obtain ⟨t, ht, hout⟩ := mem_outstanding.1 hj
    rcases mem_append_cons.1 (hslots' ▸ ht) with rfl | ht
    · have hstray := hs.wellFormed.insert_stray hadmits hforeign
      have hfresh : (Slot.fresh d.basename d.config now (s.partition.insertStray x)).Sound
          d.basename d.config := Slot.fresh_sound hstray hs.length_le
      have hi := hfresh.interest_eq_ok hout
      rw [Slot.fresh_partition] at hi
      exact absurd ((hstray.interest_admits_iff hi).1 hjx) (Partition.not_admits_insertStray _ x)
    · have hmem : t ∈ d.slots := hslots ▸ mem_append_cons.2 (.inr ht)
      have htwf := (h.slots t hmem).wellFormed
      have htx := (htwf.interest_admits_iff ((h.slots t hmem).interest_eq_ok hout)).1 hjx
      obtain ⟨hbetween, hnew⟩ := (htwf.admits_foreign_iff hforeign).1 htx
      exact ⟨t, hmem, hout, h.acrossSeam_of_between hslots ht hadmits.1 hbetween, hnew⟩
  · rintro ⟨t, ht, hout, hseam, hnew⟩
    have htwf := (h.slots t ht).wellFormed
    have hbetween := h.between_of_acrossSeam (by simp [hslots]) ht hseam
    exact (htwf.interest_admits_iff ((h.slots t ht).interest_eq_ok hout)).2
      ((htwf.admits_foreign_iff hforeign).2 ⟨hbetween, hnew⟩)

end Sound

/-- A stray that has been taken in is asked for by the slot across the seam where it lies, unless
that has recorded it before, and by no other. -/
theorem Reachable.stray_asked_across_seam (h : Reachable d) (hi : i ∈ d.outstanding)
    (hacc : i.accepts d.trust c = true) (hx : c.name.component? d.basename.length = some x)
    (hforeign : Version.isComponent x = false) :
    ∃ s ∈ d.slots, s.outstanding = some i ∧
      (∀ j ∈ (d.arrive now c i).discovery.outstanding, j.Admits x ↔
        ∃ t ∈ d.slots, t.outstanding = some j ∧ AcrossSeam s t x ∧ x ∉ t.partition.strays) ∧
      ∀ j ∈ (d.arrive now c i).discovery.outstanding,
        ∀ k ∈ (d.arrive now c i).discovery.outstanding, j.Admits x → k.Admits x → j = k := by
  have hsound := h.sound
  have hrun := hsound.isRunning_of_outstanding hi
  obtain ⟨pre, s, post, hslots, hs, hask⟩ := exists_awaiting hi
  have hmem : s ∈ d.slots := by simp [hslots]
  obtain ⟨-, hadmits⟩ := hsound.answer_admitted hmem hs hacc hx
  have hiff : ∀ j ∈ (d.arrive now c i).discovery.outstanding, j.Admits x ↔
      ∃ t ∈ d.slots, t.outstanding = some j ∧ AcrossSeam s t x ∧ x ∉ t.partition.strays := by
    intro j hj
    rw [arrive_stray_eq hrun hslots hask hacc hx hforeign] at hj
    exact hsound.admits_stray_iff hslots rfl hadmits hforeign hj
  refine ⟨s, hmem, hs, hiff, fun j hj k hk hjx hkx => ?_⟩
  obtain ⟨t, ht, htj, hst, -⟩ := (hiff j hj).1 hjx
  obtain ⟨u, hu, huk, hsu, -⟩ := (hiff k hk).1 hkx
  obtain rfl := hsound.acrossSeam_unique hmem ht hu hst hsu
  exact Option.some.inj (htj.symm.trans huk)

def seamed : Discovery :=
  (Move.start 0).apply (create ⟨[[1]]⟩ { maxExcludes := 2 } .exactKey [⟨5⟩, ⟨9⟩] none)

theorem reachable_seamed : Reachable seamed := .move _ (.create _ _ _ rfl (by decide))

def seamStray : Component := Version.toComponent ⟨8⟩ ++ [0]

def seamContent : Content := .unsigned ⟨[[1], seamStray, [0]]⟩ []

def belowSeam : Interest := seamed.outstanding.headD { name := ⟨[]⟩ }

theorem belowSeam_answered :
    belowSeam ∈ seamed.outstanding ∧ belowSeam.accepts seamed.trust seamContent = true ∧
      seamContent.name.component? seamed.basename.length = some seamStray ∧
      Version.isComponent seamStray = false := by
  refine ⟨List.mem_of_elem_eq_true ?_, ?_, ?_, ?_⟩ <;> cbv

theorem stray_asked_across_seam_sample :
    Reachable seamed ∧ belowSeam ∈ seamed.outstanding ∧
      belowSeam.accepts seamed.trust seamContent = true ∧
      ∃ s ∈ seamed.slots, s.outstanding = some belowSeam ∧
        (∀ j ∈ (seamed.arrive 0 seamContent belowSeam).discovery.outstanding,
          j.Admits seamStray ↔ ∃ t ∈ seamed.slots, t.outstanding = some j ∧
            AcrossSeam s t seamStray ∧ seamStray ∉ t.partition.strays) ∧
        ∀ j ∈ (seamed.arrive 0 seamContent belowSeam).discovery.outstanding,
          ∀ k ∈ (seamed.arrive 0 seamContent belowSeam).discovery.outstanding,
            j.Admits seamStray → k.Admits seamStray → j = k := by
  obtain ⟨hi, hacc, hx, hforeign⟩ := belowSeam_answered
  exact ⟨reachable_seamed, hi, hacc,
    reachable_seamed.stray_asked_across_seam hi hacc hx hforeign⟩

/-- The partition above the seam still asks for the stray that has answered below it, and accepts
the same content. -/
theorem stray_answers_again :
    Reachable seamed ∧ belowSeam ∈ seamed.outstanding ∧
      belowSeam.accepts seamed.trust seamContent = true ∧
      seamContent.name.component? seamed.basename.length = some seamStray ∧
      Version.isComponent seamStray = false ∧
      ∃ j ∈ (seamed.arrive 0 seamContent belowSeam).discovery.outstanding,
        j.Admits seamStray ∧ j.accepts seamed.trust seamContent = true := by
  obtain ⟨hi, hacc, hx, hforeign⟩ := belowSeam_answered
  refine ⟨reachable_seamed, hi, hacc, hx, hforeign, ?_⟩
  have hagain : ((seamed.arrive 0 seamContent belowSeam).discovery.outstanding.any fun j =>
      (j.exclude.all fun f => !f.excludes seamStray) &&
        j.accepts seamed.trust seamContent) = true := by cbv
  obtain ⟨j, hj, hboth⟩ := List.any_eq_true.1 hagain
  obtain ⟨hopen, haccepts⟩ := Bool.and_eq_true_iff.1 hboth
  refine ⟨j, hj, fun f hf => ?_, haccepts⟩
  simpa [hf] using hopen

end Discovery

end NamedContent
