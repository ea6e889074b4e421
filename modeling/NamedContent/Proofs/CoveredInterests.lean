import NamedContent.Proofs.HeldInterests

/-! Why no Interest that is outstanding is ever forgotten, whatever arrives out of the blue and
whenever a refresh comes: it is held by the transport, on its way back or yet to be expressed,
oftener than it is yet to be cancelled. That takes no more than a balance: by each event as much
is expressed anew as is cancelled and stays outstanding, and what an event finds still to be done
cancels nothing oftener than it expresses it. -/

namespace NamedContent

/-- Nothing is to be cancelled oftener than it is to be expressed. -/
def Offset (duties : List Duty) : Prop :=
  ∀ j, duties.count (.cancel j) ≤ duties.count (.express j)

theorem Paired.tail {actions : List Action} (h : Paired actions) : Paired actions.tail := by
  cases actions with
  | nil => exact h
  | cons action rest =>
    cases action with
    | express i => exact h
    | cancel i => exact h.2

theorem Offset.append {duties duties' : List Duty} (h : Offset duties) (h' : Offset duties') :
    Offset (duties ++ duties') := by
  intro j
  rw [List.count_append, List.count_append]
  exact Nat.add_le_add (h j) (h' j)

theorem Paired.offset {actions : List Action} (h : Paired actions) :
    Offset (actions.map Action.duty) := by
  intro j
  rw [count_cancel_map_duty, count_express_map_duty]
  exact Nat.le_trans (Nat.le_add_right _ _) (h.count_le j)

theorem Offset.of_answers (is : List Interest) : Offset (is.map Duty.answer) := by
  intro j
  rw [List.count_eq_zero.2 (by simp)]
  exact Nat.zero_le _

namespace Discovery

variable {d : Discovery} {now : Time} {c : Content} {i : Interest}

theorem arrive_unasked (now : Time) (c : Content) (h : d.Sound) (hi : i ∉ d.outstanding) :
    Paired (d.arrive now c i).actions.tail ∧
      ∀ j, (d.arrive now c i).discovery.outstanding.count j +
          ((d.arrive now c i).actions.filterMap Action.cancel?).count j =
        d.outstanding.count j +
          ((d.arrive now c i).actions.filterMap Action.express?).count j := by
  by_cases hrun : d.isRunning = true
  · have htaken : Taken d now c i (d.arrive now c i) := arrive_taken h hrun
    have hnot : ∀ {pre post : List Slot} {s : Slot}, d.slots = pre ++ s :: post →
        s.outstanding ≠ some i := fun {pre post s} hslots hs =>
      hi (mem_outstanding.2 ⟨s, by simp [hslots], hs⟩)
    generalize d.arrive now c i = a at htaken ⊢
    cases htaken with
    | passedOver => exact ⟨True.intro, fun _ => rfl⟩
    | duplicate => exact ⟨True.intro, fun _ => rfl⟩
    | @unasked v pre post s _ _ _ hslots =>
      refine ⟨?_, fun j => ?_⟩
      · rw [Slot.withdrawal]
        cases s.outstanding with
        | none => exact (paired_expressions _).tail
        | some j => exact paired_expressions _
      · rw [outstanding_append grown_slots, outstanding_append hslots, List.filterMap_append,
          List.filterMap_append, List.filterMap_append, cancel?_expressions, express?_expressions,
          List.filterMap_cons, Slot.withdrawal]
        cases hs : s.outstanding with
        | none =>
          simp only [List.filterMap_nil, List.append_nil, List.nil_append, List.count_append,
            List.count_nil]
          omega
        | some k =>
          simp only [List.filterMap_cons, List.filterMap_nil, Action.cancel?, Action.express?,
            List.append_nil, List.nil_append, List.count_append, List.count_cons, List.count_nil]
          omega
    | mismatch hslots hs => exact absurd hs (hnot hslots)
    | ended hslots hs => exact absurd hs (hnot hslots)
    | stray hslots hs => exact absurd hs (hnot hslots)
    | version hslots hs => exact absurd hs (hnot hslots)
  · rw [arrive, if_neg hrun]
    exact ⟨True.intro, fun _ => rfl⟩

theorem paired_tail_arrive (now : Time) (c : Content) (i : Interest) (h : d.Sound) :
    Paired (d.arrive now c i).actions.tail := by
  by_cases hi : i ∈ d.outstanding
  · exact (cancel?_arrive now c h hi).1.tail
  · exact (arrive_unasked now c h hi).1

theorem paired_timeout (now : Time) (i : Interest) (h : d.Sound) : Paired (d.timeout now i).2 := by
  by_cases hi : i ∈ d.outstanding
  · rw [(timeout_asked now h hi).2]
    exact True.intro
  · rw [timeout_unasked now hi]
    exact True.intro

theorem accounted_refresh (now : Time) (h : d.Sound) :
    Accounted d.outstanding (d.refresh now).1.outstanding (d.refresh now).2 := by
  by_cases hrun : d.isRunning = true
  · exact refresh_accounted now h hrun
  · rw [refresh, if_neg hrun]
    exact ⟨True.intro, List.nil_sublist _, fun _ => rfl⟩

end Discovery

namespace Sight

/-- What is outstanding is held, on its way back or yet to be expressed, oftener than it is yet to
be cancelled. -/
def Covered (v : Sight) : Prop :=
  ∀ j ∈ v.discovery.outstanding, v.duties.count (.cancel j) <
    v.held j + v.duties.count (.answer j) + v.duties.count (.express j)

namespace Covered

variable {d d' : Discovery} {held held' : Interest → Nat} {duty : Duty}
  {duties duties' : List Duty} {i : Interest} {actions : List Action}

theorem of_nothing (h : d.outstanding = []) : Covered ⟨d, held, duties⟩ := by
  intro j (hj : j ∈ d.outstanding)
  rw [h] at hj
  cases hj

theorem turn (h : Covered ⟨d, held, duties⟩) (d' : Discovery)
    (hout : d'.outstanding ⊆ d.outstanding)
    (hcounts : ∀ j ∈ d'.outstanding, duties.count (.cancel j) <
        held j + duties.count (.answer j) + duties.count (.express j) →
      duties'.count (.cancel j) <
        held' j + duties'.count (.answer j) + duties'.count (.express j)) :
    Covered ⟨d', held', duties'⟩ := fun j hj => hcounts j hj (h j (hout hj))

theorem account {old : List Interest} (hold : old.Nodup)
    (hbalance : ∀ j, d'.outstanding.count j + (actions.filterMap Action.cancel?).count j =
      old.count j + (actions.filterMap Action.express?).count j)
    (hcovered : ∀ j ∈ old, duties.count (.cancel j) <
      held j + duties.count (.answer j) + duties.count (.express j))
    (hoffset : Offset duties) : Covered ⟨d', held, actions.map Action.duty ++ duties⟩ := by
  intro j (hj : j ∈ d'.outstanding)
  have hone := List.nodup_iff_count_le_one.1 hold j
  have hpos := List.count_pos_iff.2 hj
  have hbalance := hbalance j
  have hoffset := hoffset j
  show (actions.map Action.duty ++ duties).count (.cancel j) <
    held j + (actions.map Action.duty ++ duties).count (.answer j) +
      (actions.map Action.duty ++ duties).count (.express j)
  simp only [List.count_append, count_cancel_map_duty, count_express_map_duty,
    (count_others_map_duty actions j).2]
  by_cases hmem : j ∈ old
  · have hlt := hcovered j hmem
    omega
  · rw [List.count_eq_zero.2 hmem] at hbalance
    omega

theorem cancels (h : Covered ⟨d, held, .cancel i :: duties⟩) :
    Covered ⟨d.cancelled, fun j => held j - [i].count j, duties⟩ := by
  refine h.turn d.cancelled (List.Subset.refl _) fun j _ hlt => ?_
  simp only [count_cancel_cons] at hlt
  omega

theorem refuses (h : Covered ⟨d, held, .express i :: duties⟩) (hd : d.Sound) :
    Covered ⟨d.refused i, held, duties⟩ := by
  have hcount := d.count_outstanding_refused i
  refine h.turn (d.refused i) (fun j hj => ?_) fun j hj hlt => ?_
  · have hpos := List.count_pos_iff.2 hj
    rw [hcount] at hpos
    exact List.count_pos_iff.1 (Nat.lt_of_lt_of_le hpos (Nat.sub_le _ _))
  · have hpos := List.count_pos_iff.2 hj
    have hone := List.nodup_iff_count_le_one.1 hd.outstanding_nodup j
    rw [hcount] at hpos
    simp only [count_express_cons] at hlt
    omega

theorem expressWaits (h : Covered ⟨d, held, .express i :: duties⟩) :
    Covered ⟨d, fun j => held j + [i].count j, .settle i :: duties⟩ := by
  refine h.turn d (List.Subset.refl _) fun j _ hlt => ?_
  simp only [count_express_cons, count_settle_cons] at hlt ⊢
  omega

theorem expressAnswered (h : Covered ⟨d, held, .express i :: duties⟩) :
    Covered ⟨d, held, .answer i :: .settle i :: duties⟩ := by
  refine h.turn d (List.Subset.refl _) fun j _ hlt => ?_
  simp only [count_express_cons, count_settle_cons, count_answer_cons] at hlt ⊢
  omega

theorem settleKeeps (h : Covered ⟨d, held, .settle i :: duties⟩) :
    Covered ⟨(d.settled i).1, held, duties⟩ := by
  refine h.turn (d.settled i).1 ?_ fun j _ hlt => ?_
  · rw [Discovery.outstanding_settled]
    exact List.Subset.refl _
  · simpa only [count_settle_cons] using hlt

theorem settleCancels (h : Covered ⟨d, held, .settle i :: duties⟩) (hd : d.Sound)
    (hkeep : (d.settled i).2 ≠ .keep) :
    Covered ⟨(d.settled i).1, fun j => held j - [i].count j, duties⟩ := by
  have hnot : i ∉ d.outstanding := fun hi => hkeep (hd.keep_of_outstanding hi)
  refine h.turn (d.settled i).1 ?_ fun j hj hlt => ?_
  · rw [Discovery.outstanding_settled]
    exact List.Subset.refl _
  · rw [Discovery.outstanding_settled] at hj
    have hij : i ≠ j := fun heq => hnot (heq ▸ hj)
    simp only [count_settle_cons] at hlt
    rw [List.count_singleton, beq_eq_false_iff_ne.2 hij]
    exact hlt

theorem answers (h : Covered ⟨d, held, duties⟩) (is : List Interest)
    (hheld : ∀ j, held j ≤ held' j + is.count j) :
    Covered ⟨d, held', is.map Duty.answer ++ duties⟩ := by
  have hanswers : ∀ j, (is.map Duty.answer).count (.answer j) = is.count j := fun j =>
    List.count_map_of_injective is Duty.answer (fun _ _ => Duty.answer.inj) j
  have hcancels : ∀ j, (is.map Duty.answer).count (.cancel j) = 0 := fun j =>
    List.count_eq_zero.2 (by simp)
  refine h.turn d (List.Subset.refl _) fun j _ hlt => ?_
  have hle := hheld j
  rw [List.count_append, List.count_append, List.count_append, hanswers, hcancels]
  omega

theorem answered (h : Covered ⟨d, held, .answer i :: duties⟩) (hd : d.Sound)
    (hbalance : ∀ j, d'.outstanding.count j + (actions.filterMap Action.cancel?).count j =
      (d.outstanding.erase i).count j + (actions.filterMap Action.express?).count j)
    (hoffset : Offset duties) : Covered ⟨d', held, actions.map Action.duty ++ duties⟩ := by
  have hnodup := hd.outstanding_nodup
  refine account (hnodup.erase i) hbalance (fun j hj => ?_) hoffset
  obtain ⟨hne, hmem⟩ := hnodup.mem_erase_iff.1 hj
  have hlt := h j hmem
  simp only [count_answer_cons] at hlt
  rwa [List.count_singleton, beq_eq_false_iff_ne.2 (Ne.symm hne)] at hlt

theorem arrives (h : Covered ⟨d, held, .answer i :: duties⟩) (hd : d.Sound)
    (hoffset : Offset duties) (now : Time) (c : Content) :
    Covered ⟨(d.arrive now c i).discovery, held,
      (d.arrive now c i).actions.map Action.duty ++ duties⟩ := by
  refine h.answered hd (fun j => ?_) hoffset
  by_cases hi : i ∈ d.outstanding
  · have hbalance := Discovery.count_outstanding_arrive now c hd hi j
    have hle := (List.singleton_sublist.2 hi).count_le j
    rw [(Discovery.cancel?_arrive now c hd hi).2, List.count_nil, List.count_erase,
      ← List.count_singleton]
    omega
  · rw [List.erase_of_not_mem hi]
    exact (Discovery.arrive_unasked now c hd hi).2 j

theorem timesOut (h : Covered ⟨d, held, .answer i :: duties⟩) (hd : d.Sound)
    (hoffset : Offset duties) (now : Time) :
    Covered ⟨(d.timeout now i).1, held, (d.timeout now i).2.map Action.duty ++ duties⟩ := by
  refine h.answered hd (fun j => ?_) hoffset
  by_cases hi : i ∈ d.outstanding
  · obtain ⟨halike, hactions⟩ := Discovery.timeout_asked now hd hi
    have hle := (List.singleton_sublist.2 hi).count_le j
    rw [halike.outstanding, hactions, List.count_erase, ← List.count_singleton]
    show d.outstanding.count j + 0 = _ + [i].count j
    omega
  · rw [Discovery.timeout_unasked now hi, List.erase_of_not_mem hi]
    rfl

theorem accounted (h : Covered ⟨d, held, duties⟩) (hd : d.Sound)
    (haccounted : Accounted d.outstanding d'.outstanding actions) (hoffset : Offset duties) :
    Covered ⟨d', held, actions.map Action.duty ++ duties⟩ :=
  account hd.outstanding_nodup haccounted.balance h hoffset

end Covered

theorem Moves.covered {calm : Prop} {v v' : Sight} (hm : Moves calm v v') (h : v.Covered)
    (hd : v.discovery.Sound) (hoffset : Offset v.duties) : v'.Covered := by
  have hrest : ∀ {i duties}, Offset (.answer i :: duties) → Offset duties := by
    intro i duties h j
    simpa only [count_answer_cons] using h j
  cases hm with
  | rests => exact h
  | starts d held duties now => exact h.accounted hd (Discovery.accounted_start now hd) hoffset
  | stops d =>
    exact .of_nothing ((Discovery.stop_sound hd).outstanding_eq_nil (by simp))
  | refreshes _ now =>
    exact h.accounted hd (Discovery.accounted_refresh now hd) hoffset
  | cancels => exact h.cancels
  | expressRefused => exact h.refuses hd
  | expressWaits => exact h.expressWaits
  | expressAnswered => exact h.expressAnswered
  | settleKeeps => exact h.settleKeeps
  | settleCancels _ _ hkeep => exact h.settleCancels hd hkeep
  | arrives d held duties now c => exact h.arrives hd (hrest hoffset) now c
  | timesOut d held duties now => exact h.timesOut hd (hrest hoffset) now
  | isAnswered _ _ i hheld => exact h.answers [i] fun j => Nat.le_of_eq (hheld j)
  | expires _ _ is hheld => exact h.answers is fun j => by rw [hheld, Nat.zero_add]
  | tells _ _ _ _ is => exact h.answers is fun j => Nat.le_add_right _ _

end Sight

end NamedContent
