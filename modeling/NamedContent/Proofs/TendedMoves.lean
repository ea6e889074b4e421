import NamedContent.Proofs.HeldInterests

/-! Whatever an event does to the slots of a retrieval, what is held for it stays accounted for:
when slots give way to others, when a retrieval starts, is refreshed or stops, and when something
arrives, times out or is refused. -/

namespace NamedContent.Sight

open Discovery (Past Alike SameTask)

namespace Tended

variable {v v' : Sight} {d d' : Discovery} {held held' : Interest → Nat} {duty : Duty}
  {duties duties' : List Duty} {i j : Interest} {now : Time} {c : Content}

section Slots

variable {pre post news : List Slot} {s : Slot} {given actions : List Action}

theorem withdrawn_of_mem
    (hgiven : ∀ action ∈ given, ∃ j, s.outstanding = some j ∧ action = .cancel j) :
    given.filterMap Action.express? = [] ∧
      ∀ j ∈ given.filterMap Action.cancel?, s.outstanding = some j := by
  constructor
  · refine List.filterMap_eq_nil_iff.2 fun action haction => ?_
    obtain ⟨j, -, rfl⟩ := hgiven action haction
    rfl
  · intro j hj
    obtain ⟨action, haction, hcancel⟩ := List.mem_filterMap.1 hj
    obtain ⟨i, hi, rfl⟩ := hgiven action haction
    rwa [← Option.some.inj hcancel]

variable (given news) in
/-- A slot gives way to others whose Interests never were before. What was outstanding of it, if
any, is cancelled, or is held no oftener than it is to be anyway. -/
theorem replace (h : Tended ⟨d, held, duties⟩) (hslots : d.slots = pre ++ s :: post)
    (hslots' : d'.slots = pre ++ news ++ post) (hd' : d'.Sound) (hsame : SameTask d d')
    (hphase : d'.phase ≠ .created) (hwithin : ∀ t ∈ news, t.partition.Within s.partition)
    (hnew : ∀ t ∈ news, ∀ j, t.outstanding = some j → ¬ d.Past j)
    (hgiven : ∀ action ∈ given, ∃ j, s.outstanding = some j ∧ action = .cancel j)
    (hgone : ∀ j, s.outstanding = some j →
      held j ≤ (given.filterMap Action.cancel?).count j + duties.count (.cancel j)) :
    Tended ⟨d', held, (given ++ Slot.expressions news).map Action.duty ++ duties⟩ := by
  obtain ⟨hnone, hwithdrawn⟩ := withdrawn_of_mem hgiven
  have hcancels : (given ++ Slot.expressions news).filterMap Action.cancel? =
      given.filterMap Action.cancel? := by
    rw [List.filterMap_append, cancel?_expressions, List.append_nil]
  have hexpresses : (given ++ Slot.expressions news).filterMap Action.express? =
      news.filterMap (·.outstanding) := by
    rw [List.filterMap_append, hnone, express?_expressions, List.nil_append]
  have hself : ∀ {j}, s.outstanding = some j → j ∈ d.outstanding := fun hj =>
    Discovery.mem_outstanding.2 ⟨s, by simp [hslots], hj⟩
  have hbrought : ∀ {j}, j ∈ news.filterMap (·.outstanding) → j ∈ d'.outstanding := fun hj => by
    rw [Discovery.outstanding_append hslots', List.filterMap_append]
    exact List.mem_append_left _ (List.mem_append_right _ hj)
  refine ⟨hd', fun hcreated => absurd hcreated hphase, fun j hj => ?_, fun j => ?_⟩
  · have hpast : ∀ {j}, d.Past j → d'.Past j := fun hj => hj.replace hslots hslots' hsame hwithin
    rw [List.map_append (f := Duty.interest), List.mem_append, mem_map_interest_duty, hexpresses,
      hcancels] at hj
    rcases hj with hj | (hj | hj) | hj
    · exact hpast (h.past j (.inl hj))
    · exact hd'.past_of_outstanding (hbrought hj)
    · exact hpast (h.sound.past_of_outstanding (hself (hwithdrawn j hj)))
    · exact hpast (h.past j (.inr hj))
  · obtain ⟨-, hanswers⟩ := count_others_map_duty (given ++ Slot.expressions news) j
    show Balanced d'.outstanding (held j) _ j
    by_cases hj : j ∈ news.filterMap (·.outstanding)
    · obtain ⟨t, ht, hout⟩ := List.mem_filterMap.1 hj
      obtain ⟨hzero, habout⟩ := h.of_not_past (hnew t ht j hout)
      have hone := List.nodup_iff_count_le_one.1 hd'.outstanding_nodup j
      rw [Discovery.outstanding_append hslots', List.filterMap_append, List.count_append,
        List.count_append] at hone
      rw [hzero]
      refine .of_new (hbrought hj) habout ?_
      rw [hanswers, count_express_map_duty, hexpresses]
      omega
    · have hmem := h.sound.mem_outstanding_replace hslots hslots' hj
      refine (h.balanced j).prepend ?_ (fun hout => ⟨(hmem.1 hout).1, ?_⟩) fun hout hin => ?_
      · rw [hanswers, count_express_map_duty, hexpresses, List.count_eq_zero.2 hj]
      · rw [← List.count_eq_zero, count_cancel_map_duty, hcancels, List.count_eq_zero]
        exact fun hcancel => (hmem.1 hout).2 (hwithdrawn j hcancel)
      · have hs : s.outstanding = some j := by
          by_contra hs
          exact hout (hmem.2 ⟨hin, hs⟩)
        rw [count_cancel_map_duty, hcancels]
        exact hgone j hs

variable (given news) in
theorem narrow (h : Tended ⟨d, held, duties⟩) (hslots : d.slots = pre ++ s :: post)
    (hslots' : d'.slots = pre ++ news ++ post) (hd' : d'.Sound) (hsame : SameTask d d')
    (hphase : d'.phase ≠ .created)
    (hnews : ∀ t ∈ news, t.Sound d.basename d.config ∧ t.partition.Narrower s.partition)
    (hgiven : ∀ action ∈ given, ∃ j, s.outstanding = some j ∧ action = .cancel j)
    (hgone : ∀ j, s.outstanding = some j →
      held j ≤ (given.filterMap Action.cancel?).count j + duties.count (.cancel j)) :
    Tended ⟨d', held, (given ++ Slot.expressions news).map Action.duty ++ duties⟩ := by
  refine h.replace _ _ hslots hslots' hd' hsame hphase (fun t ht => (hnews t ht).2.within)
    (fun t ht j hj hpast => ?_) hgiven hgone
  obtain ⟨hsound, hnarrower⟩ := hnews t ht
  exact hpast.ne (by simp [hslots]) hsound hj hnarrower rfl

theorem resume (h : Tended ⟨d, held, []⟩) (hd' : d'.Sound) (hsame : SameTask d d')
    (hparts : d'.slots.map (·.partition) = d.slots.map (·.partition)) (hphase : d'.phase ≠ .created)
    (hacc : Accounted d.outstanding d'.outstanding actions) :
    Tended ⟨d', held, actions.map Action.duty⟩ := by
  have hheld := h.held_le
  have hold := h.sound.outstanding_nodup
  have hnodup := hd'.outstanding_nodup
  refine ⟨hd', fun hcreated => absurd hcreated hphase, fun j hj => ?_, fun j => ?_⟩
  · show d'.Past j
    by_cases hnew : j ∈ d'.outstanding
    · exact hd'.past_of_outstanding hnew
    · refine Past.of_partitions (h.sound.past_of_outstanding ?_) hsame hparts
      have hbalance := hacc.balance j
      have hle := hacc.cancels.count_le j
      have hheld := hheld j
      rw [List.count_eq_zero.2 hnew] at hbalance
      rw [mem_map_interest_duty] at hj
      simp only [← List.count_pos_iff] at hj ⊢
      omega
  · obtain ⟨hsettles, hanswers⟩ := count_others_map_duty actions j
    have hbalance := hacc.balance j
    have hle := hacc.cancels.count_le j
    have hone := List.nodup_iff_count_le_one.1 hold j
    have hone' := List.nodup_iff_count_le_one.1 hnodup j
    have hheld := hheld j
    show Balanced d'.outstanding (held j) (actions.map Action.duty) j
    refine ⟨fun hout => ?_, fun hout => ?_, fun _ => .of_count_le ?_⟩
    · rw [List.count_eq_zero.2 hout] at hbalance
      rw [count_cancel_map_duty]
      omega
    · have hpos := List.count_pos_iff.2 hout
      rw [hanswers, count_express_map_duty, count_cancel_map_duty]
      omega
    · rw [hanswers, count_express_map_duty]
      omega

end Slots

theorem start (h : Tended ⟨d, held, duties⟩) (now : Time) :
    Tended ⟨(d.start now).1, held, (d.start now).2.map Action.duty ++ duties⟩ := by
  by_cases hphase : d.phase = .created
  · obtain rfl : duties = [] := (h.created hphase).1
    rw [List.append_nil]
    refine h.resume (Discovery.start_sound h.sound) (d.start_frame now)
      Discovery.partitions_start ?_ (Discovery.accounted_start now h.sound)
    rw [Discovery.start_eq hphase]
    simp
  · rw [Discovery.start, if_neg hphase]
    exact h

theorem refresh (h : Tended ⟨d, held, duties⟩) (now : Time)
    (hclear : d.isRunning = true → duties = []) :
    Tended ⟨(d.refresh now).1, held, (d.refresh now).2.map Action.duty ++ duties⟩ := by
  by_cases hrun : d.isRunning = true
  · obtain rfl := hclear hrun
    obtain ⟨hsame, hphase⟩ := d.refresh_frame now
    rw [List.append_nil]
    refine h.resume (Discovery.refresh_sound h.sound) hsame Discovery.partitions_refresh
      ?_ (Discovery.refresh_accounted now h.sound hrun)
    rw [hphase, Discovery.isRunning_iff.1 hrun]
    simp
  · rw [Discovery.refresh, if_neg hrun]
    exact h

theorem stop (h : Tended ⟨d, held, duties⟩) :
    Tended ⟨d.stop.1, held, d.stop.2.map Action.duty ++ duties⟩ := by
  by_cases hphase : d.phase = .stopped
  · rw [Discovery.stop_stopped hphase]
    exact h
  · have hcancels := Discovery.stop_cancels hphase
    have hnone := (Discovery.stop_sound h.sound).outstanding_eq_nil (by simp)
    have hexpresses : d.stop.2.filterMap Action.express? = [] := by
      refine List.filterMap_eq_nil_iff.2 fun action haction => ?_
      cases action with
      | express i => exact absurd haction Discovery.not_express_mem_stop
      | cancel i => rfl
    refine ⟨Discovery.stop_sound h.sound, fun hcreated => ?_, fun j hj => ?_, fun j => ?_⟩
    · have hcreated : d.stop.1.phase = .created := hcreated
      rw [d.stop_phase] at hcreated
      cases hcreated
    · refine Past.of_partitions ?_ d.stop_frame (Discovery.partitions_stop d)
      rw [List.map_append (f := Duty.interest), List.mem_append, mem_map_interest_duty, hexpresses,
        hcancels] at hj
      rcases hj with hj | (hj | hj) | hj
      · exact h.past j (.inl hj)
      · cases hj
      · exact h.sound.past_of_outstanding hj
      · exact h.past j (.inr hj)
    · obtain ⟨-, hanswers⟩ := count_others_map_duty d.stop.2 j
      have hbalanced : Balanced d.outstanding (held j) duties j := h.balanced j
      show Balanced d.stop.1.outstanding (held j) _ j
      rw [hnone]
      refine hbalanced.prepend ?_ nofun fun _ hj => ?_
      · rw [hanswers, count_express_map_duty, hexpresses, List.count_nil]
      · have hle := hbalanced.single hj
        have hpos := List.count_pos_iff.2 hj
        rw [count_cancel_map_duty, hcancels]
        omega

section Answers

theorem drop_answer (h : Tended ⟨d, held, .answer i :: duties⟩) : Tended ⟨d, held, duties⟩ :=
  h.drops (by simp)

theorem held_le_of_answer (h : Tended ⟨d, held, .answer i :: duties⟩) (hi : i ∈ d.outstanding) :
    held i ≤ duties.count (.cancel i) := by
  have hle := (h.balanced i).single hi
  simp only [count_answer_cons, List.count_singleton_self] at hle
  omega

theorem reexpress (h : Tended ⟨d, held, .answer i :: duties⟩) (ha : Alike d d') :
    Tended ⟨d', held, .express i :: duties⟩ := by
  refine h.turn_head ha [.express i] (fun j hj => .inl hj) (by simp [Duty.interest]) ?_
  rintro j ⟨horphaned, hsingle, hspaced⟩
  refine ⟨fun hout => ?_, fun hout => ?_, fun hout => (hspaced hout).tail.cons (by simp)⟩
  · have hle := horphaned hout
    simp only [List.singleton_append, count_answer_cons, count_express_cons] at hle ⊢
    exact hle
  · have hle := hsingle hout
    simp only [List.singleton_append, count_answer_cons, count_express_cons] at hle ⊢
    omega

theorem timesOut (h : Tended ⟨d, held, .answer i :: duties⟩) (now : Time) :
    Tended ⟨(d.timeout now i).1, held, (d.timeout now i).2.map Action.duty ++ duties⟩ := by
  by_cases hi : i ∈ d.outstanding
  · obtain ⟨ha, hactions⟩ := Discovery.timeout_asked now h.sound hi
    rw [hactions]
    exact h.reexpress ha
  · rw [Discovery.timeout_unasked now hi]
    exact h.drop_answer

theorem refuses (h : Tended ⟨d, held, .express i :: duties⟩) :
    Tended ⟨d.refused i, held, duties⟩ := by
  have hdropped : Tended ⟨d, held, duties⟩ := h.drops (by simp)
  have hsound := @Discovery.refused_sound d i h.sound
  obtain ⟨hsame, hphase⟩ := d.refused_frame i
  cases hask : d.slotAwaiting? i with
  | none =>
    have hslots : (d.refused i).slots = d.slots := by rw [d.refused_slots, hask, Option.elim_none]
    have ha : Alike d (d.refused i) := by
      refine ⟨⟨⟨hsame, by rw [hslots]⟩, hphase⟩, hsound, ?_, by rw [hslots]; exact id⟩
      rw [Discovery.outstanding, hslots, Discovery.outstanding]
    exact hdropped.alike ha
  | some k =>
    obtain ⟨pre, s, post, hslots, rfl, hs⟩ := Discovery.slotAwaiting?_eq_some hask
    have hslots' : (d.refused i).slots = pre ++ [s.clear] ++ post := by
      rw [d.refused_slots, hask, Option.elim_some, hslots, modify_append_cons, List.append_assoc]
      rfl
    refine hdropped.replace _ [] hslots hslots' hsound hsame (by rw [hphase]; exact h.phase_ne)
      ?_ ?_ (by simp) ?_
    · simpa using Partition.Within.refl _
    · simp [Slot.clear]
    · rintro j hj
      obtain rfl : i = j := Option.some.inj (hs.symm.trans hj)
      have hle := (h.balanced i).single (Discovery.mem_outstanding.2 ⟨s, by simp [hslots], hs⟩)
      simp only [count_express_cons, List.count_singleton_self] at hle
      rw [List.filterMap_nil, List.count_nil]
      omega

theorem arrives (h : Tended ⟨d, held, .answer i :: duties⟩) (now : Time) (c : Content) :
    Tended ⟨(d.arrive now c i).discovery, held,
      (d.arrive now c i).actions.map Action.duty ++ duties⟩ := by
  by_cases hrun : d.isRunning = true
  · have htaken : Discovery.Taken d now c i (d.arrive now c i) :=
      Discovery.arrive_taken h.sound hrun
    have hsound := @Discovery.arrive_sound d now c i h.sound
    obtain ⟨hsame, hphase⟩ := @Discovery.arrive_frame d now c i h.sound
    generalize d.arrive now c i = a at htaken hsound hsame hphase
    have hstarted : a.discovery.phase ≠ .created := by
      rw [hphase]
      exact h.phase_ne
    have hdropped := h.drop_answer
    have hgone : ∀ {s : Slot}, s ∈ d.slots → s.outstanding = some i →
        ∀ j, s.outstanding = some j → held j ≤
          (([] : List Action).filterMap Action.cancel?).count j + duties.count (.cancel j) := by
      intro s hs hout j hj
      obtain rfl : i = j := Option.some.inj (hout.symm.trans hj)
      rw [List.filterMap_nil, List.count_nil, Nat.zero_add]
      exact h.held_le_of_answer (Discovery.mem_outstanding.2 ⟨s, hs, hout⟩)
    have hgrown : ∀ {pre post : List Slot} {s : Slot} {v : Version}, d.slots = pre ++ s :: post →
        s.partition.covers v = true → v ∉ s.partition.excluded →
        ∀ t ∈ d.renewed now s.partition v,
          t.Sound d.basename d.config ∧ t.partition.Narrower s.partition :=
      fun hslots hcov hnew t ht =>
        ⟨Discovery.renewed_sound (h.sound.slot hslots) h.sound.config_valid hcov hnew t ht,
          Discovery.renewed_narrower (h.sound.slot hslots) hcov hnew t ht⟩
    cases htaken with
    | passedOver => exact hdropped
    | duplicate =>
      have ha : Alike d { d with metrics.duplicates := d.metrics.duplicates + 1 } :=
        ⟨⟨⟨hsame, rfl⟩, hphase⟩, hsound, rfl, id⟩
      exact hdropped.alike ha
    | @unasked v pre post s _ _ _ hslots hcov hnew =>
      refine hdropped.narrow _ _ hslots Discovery.grown_slots hsound hsame hstarted
        (hgrown hslots hcov hnew) (fun action haction => ?_) fun j hj => ?_
      · rw [Slot.withdrawal] at haction
        cases hout : s.outstanding with
        | none => simp [hout] at haction
        | some j => exact ⟨j, rfl, by simpa [hout] using haction⟩
      · have hmem : s ∈ d.slots := by simp [hslots]
        have hle := (hdropped.balanced j).single (Discovery.mem_outstanding.2 ⟨s, hmem, hj⟩)
        simp only [Slot.withdrawal, hj, List.filterMap_cons, Action.cancel?, List.filterMap_nil,
          List.count_singleton_self] at hle ⊢
        omega
    | mismatch hslots hs =>
      have hfresh := Discovery.fresh_outstanding now (h.sound.slot hslots) hs
      simp only [Slot.expressions, List.filterMap_cons, hfresh]
      exact h.reexpress (.renew h.sound hsound hsame hphase hslots rfl hs)
    | @ended pre post s hslots hs =>
      refine hdropped.replace [s.clear] [] hslots (List.append_cons _ _ _)
        hsound hsame hstarted ?_ ?_ (by simp) (hgone (by simp [hslots]) hs)
      · simpa using Partition.Within.refl _
      · simp [Slot.clear]
    | @stray x pre post s hslots hs hacc hx hforeign =>
      have hmem : s ∈ d.slots := by simp [hslots]
      obtain ⟨-, hadmits⟩ := h.sound.answer_admitted hmem hs hacc hx
      have hslot := h.sound.slot hslots
      have hstray := hslot.wellFormed.insert_stray hadmits hforeign
      refine hdropped.narrow [_] [] hslots (List.append_cons _ _ _)
        hsound hsame hstarted (List.forall_mem_singleton.2 ⟨?_, ?_⟩) (by simp) (hgone hmem hs)
      · exact Slot.fresh_sound hstray hslot.length_le
      · rw [Slot.fresh_partition]
        exact Discovery.insertStray_narrower hadmits
    | @version v pre post s hslots hs hacc hv hcov hnew =>
      exact hdropped.narrow _ [] hslots Discovery.grown_slots hsound hsame hstarted
        (hgrown hslots hcov hnew) (by simp) (hgone (by simp [hslots]) hs)
  · rw [Discovery.arrive, if_neg hrun]
    exact h.drop_answer

end Answers

end Tended

/-- In calm every move leaves what is held accounted for. -/
theorem Moves.tended {calm : Prop} {v v' : Sight} (hm : Moves calm v v') (hcalm : calm)
    (h : Tended v) : Tended v' := by
  cases hm with
  | rests => exact h
  | starts d held duties now => exact h.start now
  | stops => exact h.stop
  | refreshes _ now hclear => exact h.refresh now (hclear hcalm)
  | cancels => exact h.cancels
  | expressRefused => exact h.refuses
  | expressWaits => exact h.expressWaits
  | expressAnswered => exact h.expressAnswered
  | settleKeeps _ _ hkeep => exact h.settleKeeps hkeep
  | settleCancels => exact h.settleCancels
  | arrives d held duties now c => exact h.arrives now c
  | timesOut d held duties now => exact h.timesOut now
  | isAnswered _ _ _ hheld => exact h.isAnswered hheld
  | expires _ _ _ hheld => exact h.expires hheld
  | tells hwild => exact absurd hcalm hwild

end NamedContent.Sight
