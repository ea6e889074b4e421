import NamedContent.Proofs.DutyCounts
import NamedContent.Proofs.PastInterests

/-! What the transport holds for a retrieval among others, while its calls nest, is accounted for:
by what the retrieval has outstanding and by its duties. That stays so as its duties are done one
after another, and once nothing is left to do for a retrieval that was stopped, nothing is held for
it. -/

namespace NamedContent

theorem Discovery.outstanding_of_keep {d : Discovery} {i : Interest}
    (hkeep : (d.settled i).2 = .keep) : i ∈ d.outstanding := by
  rw [settled] at hkeep
  split at hkeep
  · cases hkeep
  · split at hkeep
    · cases hkeep
    · rename_i hsome
      obtain ⟨k, hk⟩ := Option.ne_none_iff_exists'.1 (mt Option.isNone_iff_eq_none.2 hsome)
      obtain ⟨pre, s, post, hslots, -, hs⟩ := slotAwaiting?_eq_some hk
      exact mem_outstanding.2 ⟨s, by simp [show d.slots = _ from hslots], hs⟩

theorem Discovery.timeout_unasked {d : Discovery} {i : Interest} (now : Time)
    (hi : i ∉ d.outstanding) : d.timeout now i = (d, []) := by
  have hnone : d.slotAwaiting? i = none := slotAwaiting?_eq_none_iff.2 fun s hs hout =>
    hi (mem_outstanding.2 ⟨s, hs, hout⟩)
  rw [timeout, hnone]
  split <;> rfl

theorem Discovery.refused_slots (d : Discovery) (i : Interest) :
    (d.refused i).slots =
      (d.slotAwaiting? i).elim d.slots fun k => d.slots.modify k Slot.clear := by
  have hask : ({ d with metrics.refused := d.metrics.refused + 1 } : Discovery).slotAwaiting? i =
      d.slotAwaiting? i := rfl
  rw [refused]
  dsimp only
  rw [hask]
  cases d.slotAwaiting? i <;> rfl

theorem Discovery.Sound.mem_outstanding_replace {d d' : Discovery} (h : d.Sound)
    {pre post news : List Slot} {s : Slot} (hslots : d.slots = pre ++ s :: post)
    (hslots' : d'.slots = pre ++ news ++ post) {j : Interest}
    (hj : j ∉ news.filterMap (·.outstanding)) :
    j ∈ d'.outstanding ↔ j ∈ d.outstanding ∧ s.outstanding ≠ some j := by
  have hone := List.nodup_iff_count_le_one.1 h.outstanding_nodup j
  rw [outstanding_append hslots, List.count_append, List.filterMap_cons] at hone
  rw [outstanding_append hslots', outstanding_append hslots, List.filterMap_append,
    List.filterMap_cons]
  cases hs : s.outstanding with
  | none => simp [hj]
  | some i =>
    by_cases hij : i = j
    · subst hij
      simp only [hs, List.count_cons_self] at hone
      have hpre : i ∉ pre.filterMap (·.outstanding) := List.count_eq_zero.1 (by omega)
      have hpost : i ∉ post.filterMap (·.outstanding) := List.count_eq_zero.1 (by omega)
      simp [hj, hpre, hpost]
    · simp [hj, hij, Ne.symm hij]

namespace Sight

open Discovery (Past Alike SameTask)

structure Tended (v : Sight) : Prop where
  sound : v.discovery.Sound
  created : v.discovery.phase = .created → v.duties = [] ∧ ∀ j, v.held j = 0
  past : ∀ j, 0 < v.held j ∨ j ∈ v.duties.map Duty.interest → v.discovery.Past j
  balanced : ∀ j, Balanced v.discovery.outstanding (v.held j) v.duties j

namespace Tended

variable {v v' : Sight} {d d' : Discovery} {held held' : Interest → Nat} {duty : Duty}
  {duties duties' : List Duty} {i j : Interest} {now : Time} {c : Content}

theorem held_le (h : Tended ⟨d, held, []⟩) (j : Interest) : held j ≤ d.outstanding.count j := by
  by_cases hj : j ∈ d.outstanding
  · have hsingle := (h.balanced j).single hj
    have hpos := List.count_pos_iff.2 hj
    simp only [List.count_nil] at hsingle
    omega
  · have horphaned := (h.balanced j).orphaned hj
    simp only [List.count_nil] at horphaned
    omega

theorem held_eq_zero (h : Tended ⟨d, held, []⟩) (hphase : d.phase = .stopped) (j : Interest) :
    held j = 0 := by
  have hle := h.held_le j
  rw [h.sound.outstanding_eq_nil (by simp [hphase])] at hle
  exact Nat.le_zero.1 hle

theorem of_created (hd : d.Sound) (hphase : d.phase = .created) :
    Tended ⟨d, fun _ => 0, []⟩ where
  sound := hd
  created _ := ⟨rfl, fun _ => rfl⟩
  past j hj := by
    rcases hj with hj | hj <;> cases hj
  balanced j := by
    show Balanced d.outstanding 0 [] j
    rw [hd.outstanding_eq_nil (by simp [hphase])]
    exact ⟨fun _ => Nat.zero_le _, nofun, nofun⟩

theorem of_not_past (h : Tended ⟨d, held, duties⟩) (hj : ¬ d.Past j) :
    held j = 0 ∧ ∀ duty ∈ duties, duty.interest ≠ j := by
  have hnot := mt (h.past j) hj
  rw [not_or] at hnot
  refine ⟨Nat.eq_zero_of_not_pos hnot.1, fun duty hduty heq => hnot.2 ?_⟩
  exact List.mem_map.2 ⟨duty, hduty, heq⟩

theorem phase_ne (h : Tended ⟨d, held, duty :: duties⟩) : d.phase ≠ .created := fun hphase =>
  List.cons_ne_nil _ _ (h.created hphase).1

theorem turn (h : Tended ⟨d, held, duties⟩) (ha : Alike d d')
    (hcreated : d.phase = .created → duties' = [] ∧ ∀ j, held' j = 0)
    (hpast : ∀ j, 0 < held' j ∨ j ∈ duties'.map Duty.interest →
      0 < held j ∨ j ∈ duties.map Duty.interest ∨ d.Past j)
    (hbalanced : ∀ j, Balanced d.outstanding (held j) duties j →
      Balanced d.outstanding (held' j) duties' j) : Tended ⟨d', held', duties'⟩ where
  sound := ha.sound
  created hphase := hcreated (ha.phase ▸ hphase)
  past j hj := by
    refine Past.of_partitions ?_ ha.same ha.partitions
    rcases hpast j hj with hheld | hduty | hpast
    · exact h.past j (.inl hheld)
    · exact h.past j (.inr hduty)
    · exact hpast
  balanced j := by
    show Balanced d'.outstanding _ _ j
    rw [ha.outstanding]
    exact hbalanced j (h.balanced j)

theorem alike (h : Tended ⟨d, held, duties⟩) (ha : Alike d d') : Tended ⟨d', held, duties⟩ :=
  h.turn ha h.created (fun _ hj => hj.elim .inl fun hduty => .inr (.inl hduty)) fun _ => id

theorem turn_head (h : Tended ⟨d, held, duty :: duties⟩) (ha : Alike d d') (tasks : List Duty)
    (hheld : ∀ j, 0 < held' j → 0 < held j ∨ j = duty.interest)
    (htasks : ∀ task ∈ tasks, task.interest = duty.interest)
    (hbalanced : ∀ j, Balanced d.outstanding (held j) (duty :: duties) j →
      Balanced d.outstanding (held' j) (tasks ++ duties) j) :
    Tended ⟨d', held', tasks ++ duties⟩ := by
  refine h.turn ha (fun hphase => absurd hphase h.phase_ne) (fun j hj => ?_) hbalanced
  have hself : j = duty.interest → 0 < held j ∨ j ∈ (duty :: duties).map Duty.interest ∨
      d.Past j := fun heq => .inr (.inl (heq ▸ List.mem_cons_self))
  rcases hj with hj | hj
  · rcases hheld j hj with hj | hj
    · exact .inl hj
    · exact hself hj
  · rw [List.map_append, List.mem_append] at hj
    rcases hj with hj | hj
    · obtain ⟨task, htask, rfl⟩ := List.mem_map.1 hj
      exact hself (htasks task htask)
    · exact .inr (.inl (List.mem_cons_of_mem _ hj))

section Heads

theorem cancels (h : Tended ⟨d, held, .cancel i :: duties⟩) :
    Tended ⟨d.cancelled, fun j => held j - [i].count j, duties⟩ := by
  refine h.turn_head (.cancelled h.sound) [] (fun j hj => .inl ?_) (by simp) ?_
  · omega
  · rintro j ⟨horphaned, hsingle, hspaced⟩
    simp only [count_cancel_cons, List.nil_append] at horphaned hsingle ⊢
    refine ⟨fun hout => ?_, fun hout => ?_, fun hout => (hspaced hout).tail⟩
    · have hle := horphaned hout
      omega
    · have hle := hsingle hout
      by_cases hij : i = j
      · subst hij
        have hbehind := hspaced hout duties List.suffix_rfl
        rw [List.count_singleton_self] at hle ⊢
        omega
      · rw [List.count_singleton, beq_eq_false_iff_ne.2 hij] at hle ⊢
        exact hle

theorem drops (h : Tended ⟨d, held, duty :: duties⟩)
    (hduty : ∀ j, duty ≠ .cancel j ∧ duty ≠ .settle j) : Tended ⟨d, held, duties⟩ := by
  refine h.turn_head (.refl h.sound) [] (fun j hj => .inl hj) (by simp) ?_
  rintro j ⟨horphaned, hsingle, hspaced⟩
  obtain ⟨hcancel, hsettle⟩ := hduty j
  rw [List.count_cons_of_ne hcancel, List.count_cons_of_ne hsettle] at horphaned
  rw [List.count_cons_of_ne hcancel, List.count_cons, List.count_cons] at hsingle
  refine ⟨horphaned, fun hout => ?_, fun hout => (hspaced hout).tail⟩
  have hle := hsingle hout
  rw [List.nil_append]
  omega

theorem expressWaits (h : Tended ⟨d, held, .express i :: duties⟩) :
    Tended ⟨d, fun j => held j + [i].count j, .settle i :: duties⟩ := by
  refine h.turn_head (.refl h.sound) [.settle i] (fun j hj => ?_)
    (by simp [Duty.interest]) ?_
  · by_cases hij : i = j
    · exact .inr hij.symm
    · rw [List.count_cons_of_ne hij] at hj
      exact .inl hj
  · rintro j ⟨horphaned, hsingle, hspaced⟩
    refine ⟨fun hout => ?_, fun hout => ?_, fun hout => (hspaced hout).tail.cons (by simp)⟩
    · have hle := horphaned hout
      simp only [List.singleton_append, count_express_cons, count_settle_cons] at hle ⊢
      omega
    · have hle := hsingle hout
      simp only [List.singleton_append, count_express_cons, count_settle_cons] at hle ⊢
      omega

theorem expressAnswered (h : Tended ⟨d, held, .express i :: duties⟩) :
    Tended ⟨d, held, .answer i :: .settle i :: duties⟩ := by
  refine h.turn_head (.refl h.sound) [.answer i, .settle i] (fun j hj => .inl hj)
    (by simp [Duty.interest]) ?_
  rintro j ⟨horphaned, hsingle, hspaced⟩
  refine ⟨fun hout => ?_, fun hout => ?_, fun hout => ?_⟩
  · have hle := horphaned hout
    simp only [List.cons_append, List.nil_append, count_express_cons, count_settle_cons,
      count_answer_cons] at hle ⊢
    omega
  · have hle := hsingle hout
    simp only [List.cons_append, List.nil_append, count_express_cons, count_settle_cons,
      count_answer_cons] at hle ⊢
    omega
  · exact ((hspaced hout).tail.cons (by simp)).cons (by simp)

theorem settleKeeps (h : Tended ⟨d, held, .settle i :: duties⟩)
    (hkeep : (d.settled i).2 = .keep) : Tended ⟨(d.settled i).1, held, duties⟩ := by
  refine h.turn_head (.settled h.sound) [] (fun j hj => .inl hj) (by simp) ?_
  rintro j ⟨horphaned, hsingle, hspaced⟩
  simp only [count_settle_cons, List.nil_append] at horphaned hsingle ⊢
  refine ⟨fun hout => ?_, hsingle, fun hout => (hspaced hout).tail⟩
  have hle := horphaned hout
  have hij : i ≠ j := fun heq => hout (heq ▸ Discovery.outstanding_of_keep hkeep)
  rwa [List.count_singleton, beq_eq_false_iff_ne.2 hij] at hle

theorem settleCancels (h : Tended ⟨d, held, .settle i :: duties⟩) :
    Tended ⟨(d.settled i).1, fun j => held j - [i].count j, duties⟩ := by
  refine h.turn_head (.settled h.sound) [] (fun j hj => .inl ?_) (by simp) ?_
  · omega
  · rintro j ⟨horphaned, hsingle, hspaced⟩
    simp only [count_settle_cons, List.nil_append] at horphaned hsingle ⊢
    refine ⟨fun hout => ?_, fun hout => ?_, fun hout => (hspaced hout).tail⟩
    · have hle := horphaned hout
      omega
    · have hle := hsingle hout
      omega

theorem isAnswered (h : Tended ⟨d, held, duties⟩) (hheld : ∀ j, held j = held' j + [i].count j) :
    Tended ⟨d, held', .answer i :: duties⟩ := by
  have hpos : 0 < held i := by simp [hheld]
  refine h.turn (.refl h.sound) (fun hphase => ?_) (fun j hj => ?_) ?_
  · have hzero := (h.created hphase).2 i
    exact absurd hzero (Nat.ne_of_gt hpos)
  · rcases hj with hj | hj
    · exact .inl (by rw [hheld]; omega)
    · rcases List.mem_cons.1 hj with rfl | hj
      · exact .inl hpos
      · exact .inr (.inl hj)
  · rintro j ⟨horphaned, hsingle, hspaced⟩
    rw [hheld] at horphaned hsingle
    refine ⟨fun hout => ?_, fun hout => ?_, fun hout => (hspaced hout).cons (by simp)⟩
    · have hle := horphaned hout
      simp only [count_answer_cons]
      omega
    · have hle := hsingle hout
      simp only [count_answer_cons]
      omega

theorem expires (h : Tended ⟨d, held, duties⟩) {is : List Interest}
    (hheld : ∀ j, held j = is.count j) : Tended ⟨d, fun _ => 0, is.map Duty.answer ++ duties⟩ := by
  have hcount : ∀ j, (is.map Duty.answer).count (.answer j) = is.count j := fun j =>
    List.count_map_of_injective is Duty.answer (fun _ _ => Duty.answer.inj) j
  have hnone : ∀ duty, (∀ j, duty ≠ Duty.answer j) → (is.map Duty.answer).count duty = 0 := by
    intro duty hduty
    refine List.count_eq_zero.2 fun hmem => ?_
    obtain ⟨j, -, heq⟩ := List.mem_map.1 hmem
    exact hduty j heq.symm
  refine h.turn (.refl h.sound) (fun hphase => ⟨?_, fun _ => rfl⟩) (fun j hj => ?_) ?_
  · obtain ⟨hduties, hzero⟩ := h.created hphase
    have hnil : is = [] := List.eq_nil_iff_forall_not_mem.2 fun j hj => by
      have hpos := List.count_pos_iff.2 hj
      rw [← hheld] at hpos
      exact absurd (hzero j) (Nat.ne_of_gt hpos)
    simp [hnil, show duties = [] from hduties]
  · rcases hj with hj | hj
    · cases hj
    · rw [List.map_append, List.mem_append, List.map_map] at hj
      rcases hj with hj | hj
      · obtain ⟨i, hi, rfl⟩ := List.mem_map.1 hj
        exact .inl (by rw [hheld]; exact List.count_pos_iff.2 hi)
      · exact .inr (.inl hj)
  · rintro j ⟨horphaned, hsingle, hspaced⟩
    refine ⟨fun _ => Nat.zero_le _, fun hout => ?_, fun hout => (hspaced hout).append ?_⟩
    · have hle := hsingle hout
      rw [hheld] at hle
      simp only [List.count_append, hcount, hnone (.cancel j) (by simp),
        hnone (.express j) (by simp)]
      omega
    · simp

end Heads

end Tended

end Sight

end NamedContent
