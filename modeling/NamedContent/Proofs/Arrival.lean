import NamedContent.Proofs.DiscoverySound

/-! What an arrival does to a sound discovery that runs, case by case. The slot that asked, if any,
is the one that changes: an answer to an outstanding Interest is never a version already seen, and
never one that another slot covers. -/

namespace NamedContent.Discovery

/-- The slots that take the place of one whose partition has a version more. -/
def renewed (d : Discovery) (now : Time) (p : Partition) (v : Version) : List Slot :=
  ((p.insert v).parts d.config.maxExcludes).map (Slot.fresh d.basename d.config now)

def grown (d : Discovery) (now : Time) (pre : List Slot) (s : Slot) (post : List Slot)
    (v : Version) : Discovery :=
  { (d.recordVersion v).1 with
    slots := pre ++ d.renewed now s.partition v ++ post
    metrics.splits := d.metrics.splits + ((d.renewed now s.partition v).length - 1) }

variable {d : Discovery} {now : Time} {c : Content} {i : Interest}

/-- How a sound discovery that runs takes in content that arrives in answer to an Interest. -/
inductive Taken (d : Discovery) (now : Time) (c : Content) (i : Interest) : Absorbed → Prop where
  | passedOver (hask : d.slotAwaiting? i = none)
      (hnone : i.accepts d.trust c = true →
        ∀ v, Version.ofNameAt c.name d.basename.length ≠ .ok v) :
      Taken d now c i { discovery := d }
  | duplicate {v : Version} (hask : d.slotAwaiting? i = none)
      (hacc : i.accepts d.trust c = true)
      (hv : Version.ofNameAt c.name d.basename.length = .ok v) (hold : d.isExcluded v = true) :
      Taken d now c i
        { discovery := { d with metrics.duplicates := d.metrics.duplicates + 1 } }
  | unasked {v : Version} {pre post : List Slot} {s : Slot} (hask : d.slotAwaiting? i = none)
      (hacc : i.accepts d.trust c = true)
      (hv : Version.ofNameAt c.name d.basename.length = .ok v)
      (hslots : d.slots = pre ++ s :: post) (hcov : s.partition.covers v = true)
      (hnew : v ∉ s.partition.excluded) :
      Taken d now c i
        { discovery := d.grown now pre s post v
          actions := s.withdrawal ++ Slot.expressions (d.renewed now s.partition v)
          delivers := (d.recordVersion v).2 }
  | mismatch {pre post : List Slot} {s : Slot} (hslots : d.slots = pre ++ s :: post)
      (hs : s.outstanding = some i) (hacc : i.accepts d.trust c = false) :
      Taken d now c i
        { discovery :=
            { d with slots := pre ++ Slot.fresh d.basename d.config now s.partition :: post }
          actions := Slot.expressions [Slot.fresh d.basename d.config now s.partition] }
  | ended {pre post : List Slot} {s : Slot} (hslots : d.slots = pre ++ s :: post)
      (hs : s.outstanding = some i) (hacc : i.accepts d.trust c = true)
      (hend : c.name.component? d.basename.length = none) :
      Taken d now c i { discovery := { d with slots := pre ++ s.clear :: post } }
  | stray {x : Component} {pre post : List Slot} {s : Slot} (hslots : d.slots = pre ++ s :: post)
      (hs : s.outstanding = some i) (hacc : i.accepts d.trust c = true)
      (hx : c.name.component? d.basename.length = some x)
      (hforeign : Version.isComponent x = false) :
      Taken d now c i
        { discovery :=
            { d with slots :=
                pre ++ Slot.fresh d.basename d.config now (s.partition.insertStray x) :: post }
          actions :=
            Slot.expressions [Slot.fresh d.basename d.config now (s.partition.insertStray x)] }
  | version {v : Version} {pre post : List Slot} {s : Slot} (hslots : d.slots = pre ++ s :: post)
      (hs : s.outstanding = some i) (hacc : i.accepts d.trust c = true)
      (hv : Version.ofNameAt c.name d.basename.length = .ok v)
      (hcov : s.partition.covers v = true) (hnew : v ∉ s.partition.excluded) :
      Taken d now c i
        { discovery := d.grown now pre s post v
          actions := Slot.expressions (d.renewed now s.partition v)
          delivers := (d.recordVersion v).2 }

theorem replaceAt_eq (now : Time) {pre post : List Slot} {s : Slot}
    (hslots : d.slots = pre ++ s :: post) :
    d.replaceAt pre.length now =
      let news := (s.partition.parts d.config.maxExcludes).map
        (Slot.fresh d.basename d.config now)
      ({ d with
          slots := pre ++ news ++ post
          metrics.splits := d.metrics.splits + (news.length - 1) },
        s.withdrawal ++ Slot.expressions news) := by
  rw [replaceAt, hslots, getElem?_append_cons]
  simp only
  rw [Partition.parts]
  split
  · rw [splitAt, hslots, getElem?_append_cons]
    simp only
    cases hsplit : s.partition.split? with
    | none =>
      have hset : ({ d with slots := d.slots.set pre.length { partition := s.partition } } :
          Discovery).slots = pre ++ { partition := s.partition } :: post := by
        simp [hslots]
      simp only
      rw [← hslots, reissueAt_eq hset]
      simp
    | some halves =>
      obtain ⟨l, r⟩ := halves
      simp only [Slot.reissue_eq, ← Slot.expressions_append]
      simp
  · rw [reissueAt_eq hslots]
    simp

theorem recordVersion_eq (d : Discovery) (v : Version) :
    ∃ m, (d.recordVersion v).1 = { d with metrics := m } ∧ m.splits = d.metrics.splits ∧
      m.duplicates = d.metrics.duplicates := by
  rw [recordVersion]
  split
  · split
    · exact ⟨_, rfl, rfl, rfl⟩
    · exact ⟨_, rfl, rfl, rfl⟩
  · exact ⟨_, rfl, rfl, rfl⟩

theorem recordVersion_slots (d : Discovery) (slots : List Slot) (v : Version) :
    ({ d with slots := slots } : Discovery).recordVersion v =
      ({ (d.recordVersion v).1 with slots := slots }, (d.recordVersion v).2) := by
  simp only [recordVersion]
  split
  · split <;> rfl
  · rfl

theorem absorbVersion_eq {pre post : List Slot} {s : Slot} {v : Version} {asked : Option Nat}
    (hslots : d.slots = pre ++ s :: post) (hnew : v ∉ s.partition.excluded)
    (hasked : asked = none ∨ asked = some pre.length) :
    d.absorbVersion now asked pre.length s v =
      { discovery := d.grown now pre s post v
        actions := s.withdrawal ++ Slot.expressions (d.renewed now s.partition v)
        delivers := (d.recordVersion v).2 } := by
  have hother : (if asked = some pre.length then none else asked) = none := by
    rcases hasked with rfl | rfl <;> simp
  have hex : s.partition.isExcluded v = false := by simpa [Partition.isExcluded] using hnew
  rw [absorbVersion, hex, if_neg Bool.false_ne_true]
  simp only [hother, ignore, List.nil_append]
  obtain ⟨m, hm, hsplits, -⟩ := recordVersion_eq d v
  rw [recordVersion_slots, hm]
  have hset : ({ d with
      slots := d.slots.set pre.length { s with partition := s.partition.insert v }
      metrics := m } : Discovery).slots =
      pre ++ { s with partition := s.partition.insert v } :: post := by
    simp [hslots]
  have hrep := replaceAt_eq now hset
  simp only at hrep ⊢
  rw [hrep]
  simp [grown, renewed, hm, hsplits, Slot.withdrawal]

theorem ignore_eq (now : Time) {pre post : List Slot} {s : Slot}
    (hslots : d.slots = pre ++ s :: post) :
    d.ignore now (some pre.length) =
      let t := Slot.fresh d.basename d.config now s.partition
      { discovery := { d with slots := pre ++ t :: post }
        actions := Slot.expressions [t] } := by
  simp only [ignore, reissueAt_eq hslots]

theorem arrive_taken_unasked (h : d.Sound) (hrun : d.isRunning = true)
    (hask : d.slotAwaiting? i = none) : Taken d now c i (d.arrive now c i) := by
  rw [arrive, if_pos hrun, absorb, hask]
  simp only [ignore]
  by_cases hacc : i.accepts d.trust c = true
  · rw [hacc, Bool.not_true, if_neg Bool.false_ne_true]
    cases hv : Version.ofNameAt c.name d.basename.length with
    | error fault =>
      have hnone : ∀ v, Version.ofNameAt c.name d.basename.length ≠ .ok v := by simp [hv]
      cases fault <;> exact .passedOver hask fun _ => hnone
    | ok v =>
      have hr : v.InRange := (Version.ofNameAt_eq_ok_iff.1 hv).1
      obtain ⟨pre, s, post, hslots, hcov, htarget⟩ := h.exists_slotCovering? hr
      have hs : d.slots[pre.length]? = some s := by
        rw [hslots, getElem?_append_cons]
      simp only [htarget, hs]
      by_cases hold : v ∈ s.partition.excluded
      · have hex : s.partition.isExcluded v = true := by simpa [Partition.isExcluded] using hold
        rw [absorbVersion, if_pos hex]
        refine .duplicate hask hacc hv ?_
        rw [h.isExcluded_iff_of_covers (by simp [hslots]) hcov]
        exact hold
      · rw [absorbVersion_eq hslots hold (.inl rfl)]
        exact .unasked hask hacc hv hslots hcov hold
  · rw [Bool.not_eq_true] at hacc
    rw [hacc, Bool.not_false, if_pos rfl]
    exact .passedOver hask fun htrue => by simp [hacc] at htrue

section Asked

variable {pre post : List Slot} {s : Slot}

theorem modify_clear (hslots : d.slots = pre ++ s :: post) :
    d.slots.modify pre.length Slot.clear = pre ++ s.clear :: post := by
  rw [hslots, modify_append_cons]

theorem arrive_mismatch_eq (hrun : d.isRunning = true)
    (hslots : d.slots = pre ++ s :: post) (hask : d.slotAwaiting? i = some pre.length)
    (hacc : i.accepts d.trust c = false) :
    d.arrive now c i =
      let t := Slot.fresh d.basename d.config now s.partition
      { discovery := { d with slots := pre ++ t :: post }
        actions := Slot.expressions [t] } := by
  rw [arrive, if_pos hrun, absorb, hask]
  simp only [modify_clear hslots, hacc, Bool.not_false, if_true]
  exact ignore_eq (d := { d with slots := pre ++ s.clear :: post }) now rfl (s := s.clear)

theorem arrive_ended_eq (hrun : d.isRunning = true) (hslots : d.slots = pre ++ s :: post)
    (hask : d.slotAwaiting? i = some pre.length) (hacc : i.accepts d.trust c = true)
    (hend : c.name.component? d.basename.length = none) :
    d.arrive now c i = { discovery := { d with slots := pre ++ s.clear :: post } } := by
  have hv : Version.ofNameAt c.name d.basename.length =
      .error (.missingComponent d.basename.length) := by
    rw [Version.ofNameAt, hend]
  rw [arrive, if_pos hrun, absorb, hask]
  simp only [modify_clear hslots, hacc, Bool.not_true, Bool.false_eq_true, if_false, hv]

theorem arrive_stray_eq (hrun : d.isRunning = true) (hslots : d.slots = pre ++ s :: post)
    (hask : d.slotAwaiting? i = some pre.length) (hacc : i.accepts d.trust c = true)
    {x : Component} (hx : c.name.component? d.basename.length = some x)
    (hforeign : Version.isComponent x = false) :
    d.arrive now c i =
      let t := Slot.fresh d.basename d.config now (s.partition.insertStray x)
      { discovery := { d with slots := pre ++ t :: post }
        actions := Slot.expressions [t] } := by
  have hv : Version.ofNameAt c.name d.basename.length = Version.ofComponent x := by
    rw [Version.ofNameAt, hx]
  have hexclude : (pre ++ s.clear :: post).modify pre.length (·.exclude x) =
      pre ++ s.clear.exclude x :: post := modify_append_cons _ _ _ _
  have hignore := ignore_eq (d := { d with slots := pre ++ s.clear.exclude x :: post }) now rfl
  rw [arrive, if_pos hrun, absorb, hask]
  simp only [modify_clear hslots, hacc, Bool.not_true, Bool.false_eq_true, if_false, hv, hx]
  cases hfault : Version.ofComponent x with
  | ok v => simp [Version.isComponent, hfault] at hforeign
  | error fault =>
    cases fault with
    | missingComponent n => exact absurd hfault (Version.ofComponent_ne_missing x n)
    | notAVersion marker length =>
      simp only [hexclude]
      exact hignore
    | outOfRange ticks =>
      simp only [hexclude]
      exact hignore

/-- A version that a slot asked for is never a duplicate, and that slot is the one that takes it
in. -/
theorem arrive_version_eq (h : d.Sound) (hrun : d.isRunning = true) {v : Version}
    (hslots : d.slots = pre ++ s :: post) (hs : s.outstanding = some i)
    (hask : d.slotAwaiting? i = some pre.length) (hacc : i.accepts d.trust c = true)
    (hv : Version.ofNameAt c.name d.basename.length = .ok v) :
    d.arrive now c i =
      { discovery := d.grown now pre s post v
        actions := Slot.expressions (d.renewed now s.partition v)
        delivers := (d.recordVersion v).2 } := by
  obtain ⟨hcov, hnew⟩ := h.answer_version (by simp [hslots]) hs hacc hv
  have hcleared : ({ d with slots := pre ++ s.clear :: post } : Discovery).Sound :=
    h.replace_one hslots rfl rfl rfl rfl rfl (h.slot hslots).clear hrun
  have htarget := hcleared.slotCovering?_eq_some rfl (s := s.clear) hcov
  rw [arrive, if_pos hrun, absorb, hask]
  simp only [modify_clear hslots, hacc, Bool.not_true, Bool.false_eq_true, if_false, hv, htarget,
    getElem?_append_cons]
  rw [absorbVersion_eq rfl (s := s.clear) hnew (.inr rfl)]
  simp only [grown, recordVersion_slots, renewed, Slot.withdrawal, Slot.clear, List.nil_append]

theorem arrive_taken_asked (h : d.Sound) (hrun : d.isRunning = true)
    (hslots : d.slots = pre ++ s :: post) (hs : s.outstanding = some i)
    (hask : d.slotAwaiting? i = some pre.length) : Taken d now c i (d.arrive now c i) := by
  cases hacc : i.accepts d.trust c with
  | false =>
    rw [arrive_mismatch_eq hrun hslots hask hacc]
    exact .mismatch hslots hs hacc
  | true =>
    cases hx : c.name.component? d.basename.length with
    | none =>
      rw [arrive_ended_eq hrun hslots hask hacc hx]
      exact .ended hslots hs hacc hx
    | some x =>
      cases hv : Version.ofComponent x with
      | error fault =>
        have hforeign : Version.isComponent x = false := by simp [Version.isComponent, hv]
        rw [arrive_stray_eq hrun hslots hask hacc hx hforeign]
        exact .stray hslots hs hacc hx hforeign
      | ok v =>
        have hname := Version.ofNameAt_of_component? hx hv
        obtain ⟨hcov, hnew⟩ := h.answer_version (by simp [hslots]) hs hacc hname
        rw [arrive_version_eq h hrun hslots hs hask hacc hname]
        exact .version hslots hs hacc hname hcov hnew

end Asked

theorem arrive_taken (h : d.Sound) (hrun : d.isRunning = true) :
    Taken d now c i (d.arrive now c i) := by
  cases hask : d.slotAwaiting? i with
  | none => exact arrive_taken_unasked h hrun hask
  | some k =>
    obtain ⟨pre, s, post, hslots, rfl, hs⟩ := slotAwaiting?_eq_some hask
    exact arrive_taken_asked h hrun hslots hs hask

end NamedContent.Discovery
