import NamedContent.Proofs.Answers
import NamedContent.Proofs.LayeredAgendas

/-! What the events of a discovery do to the Interests outstanding. Most leave the same ones and the
same versions excluded. A refusal and the end of a name leave a slot idle, an arrival brings on the
slots that take the place of the one that asked, a refresh cancels what is outstanding just before
it expresses that anew, and a stop gives up all of it. -/

namespace NamedContent

/-- By these actions what is outstanding changes from `old` to `new`: what is given up is cancelled
and what comes is expressed. -/
structure Accounted (old new : List Interest) (actions : List Action) : Prop where
  paired : Paired actions
  cancels : (actions.filterMap Action.cancel?).Sublist old
  balance : ∀ j, new.count j + (actions.filterMap Action.cancel?).count j =
    old.count j + (actions.filterMap Action.express?).count j

theorem Accounted.append {old new old' new' : List Interest} {actions actions' : List Action}
    (h : Accounted old new actions) (h' : Accounted old' new' actions') :
    Accounted (old ++ old') (new ++ new') (actions ++ actions') where
  paired := h.paired.append h'.paired
  cancels := by
    rw [List.filterMap_append]
    exact h.cancels.append h'.cancels
  balance j := by
    have hbalance := h.balance j
    have hbalance' := h'.balance j
    simp only [List.filterMap_append, List.count_append]
    omega

namespace Discovery

variable {d : Discovery} {now : Time} {c : Content} {i : Interest}

theorem Sound.outstanding_eq_nil (h : d.Sound) (hidle : d.phase ≠ .running) :
    d.outstanding = [] := by
  refine List.filterMap_eq_nil_iff.2 (h.quiet ?_)
  rw [← Bool.not_eq_true, isRunning_iff]
  exact hidle

theorem arrive_stopped (hphase : d.phase = .stopped) : d.arrive now c i = { discovery := d } := by
  simp [arrive, isRunning, hphase]

theorem timeout_stopped (hphase : d.phase = .stopped) : d.timeout now i = (d, []) := by
  simp [timeout, isRunning, hphase]

theorem stop_stopped (hphase : d.phase = .stopped) : d.stop = (d, []) := by
  rw [stop, if_pos hphase]

theorem count_outstanding_refused (d : Discovery) (i j : Interest) :
    (d.refused i).outstanding.count j = d.outstanding.count j - [i].count j := by
  rw [refused]
  dsimp only
  split
  · rename_i k hask
    obtain ⟨pre, s, post, hslots, rfl, hs⟩ := slotAwaiting?_eq_some hask
    have hslots : d.slots = pre ++ s :: post := hslots
    rw [outstanding_append hslots, List.filterMap_cons, hs, outstanding]
    simp only [hslots, modify_append_cons, List.filterMap_append, List.filterMap_cons, Slot.clear,
      List.count_append, List.count_cons, List.count_nil]
    omega
  · rename_i hask
    have hnone : d.outstanding.count i = 0 := by
      rw [List.count_eq_zero, mem_outstanding]
      rintro ⟨s, hs, hout⟩
      exact slotAwaiting?_eq_none_iff.1 hask s hs hout
    show d.outstanding.count j = d.outstanding.count j - [i].count j
    by_cases hij : i = j
    · rw [← hij, hnone, Nat.zero_sub]
    · rw [List.count_singleton, beq_eq_false_iff_ne.2 hij]
      rfl

theorem Sound.arrive_asked (now : Time) (c : Content) (h : d.Sound) (hi : i ∈ d.outstanding) :
    ∃ (pre : List Slot) (s : Slot) (post news : List Slot), d.slots = pre ++ s :: post ∧
      s.outstanding = some i ∧ (d.arrive now c i).discovery.slots = pre ++ news ++ post ∧
      (d.arrive now c i).actions = Slot.expressions news := by
  have hrun := h.isRunning_of_outstanding hi
  obtain ⟨pre, s, post, hslots, hs, hask⟩ := exists_awaiting hi
  have htaken : Taken d now c i (d.arrive now c i) := arrive_taken_asked h hrun hslots hs hask
  have hasked : d.slotAwaiting? i ≠ none := by simp [hask]
  generalize d.arrive now c i = a at htaken
  cases htaken with
  | passedOver hnone => exact absurd hnone hasked
  | duplicate hnone => exact absurd hnone hasked
  | unasked hnone => exact absurd hnone hasked
  | mismatch hslots hs =>
    exact ⟨_, _, _, [_], hslots, hs, List.append_cons _ _ _, rfl⟩
  | @ended pre post s hslots hs =>
    exact ⟨pre, s, post, [s.clear], hslots, hs, List.append_cons _ _ _, rfl⟩
  | stray hslots hs =>
    exact ⟨_, _, _, [_], hslots, hs, List.append_cons _ _ _, rfl⟩
  | version hslots hs => exact ⟨_, _, _, _, hslots, hs, grown_slots, rfl⟩

theorem count_outstanding_arrive (now : Time) (c : Content) (h : d.Sound)
    (hi : i ∈ d.outstanding) (j : Interest) :
    (d.arrive now c i).discovery.outstanding.count j + [i].count j =
      d.outstanding.count j +
        ((d.arrive now c i).actions.filterMap Action.express?).count j := by
  obtain ⟨pre, s, post, news, hslots, hs, hslots', hactions⟩ := h.arrive_asked now c hi
  rw [outstanding_append hslots', outstanding_append hslots, hactions, express?_expressions,
    List.filterMap_cons, hs, List.filterMap_append]
  simp only [List.count_append, List.count_cons, List.count_nil]
  omega

theorem cancel?_arrive (now : Time) (c : Content) (h : d.Sound) (hi : i ∈ d.outstanding) :
    Paired (d.arrive now c i).actions ∧
      (d.arrive now c i).actions.filterMap Action.cancel? = [] := by
  obtain ⟨pre, s, post, news, -, -, -, hactions⟩ := h.arrive_asked now c hi
  rw [hactions]
  exact ⟨paired_expressions news, cancel?_expressions news⟩

theorem refresh_one (now : Time) {s : Slot} (h : s.Sound d.basename d.config) :
    Accounted ([s].filterMap (·.outstanding))
      ([(s.refresh d.basename d.config now).1].filterMap (·.outstanding))
      (s.refresh d.basename d.config now).2 := by
  rw [s.refresh_eq]
  split
  · obtain ⟨i, since, hi, -, hok⟩ :
        (Slot.fresh d.basename d.config now s.partition).Live d.basename d.config :=
      Slot.fresh_live h.wellFormed
    cases hs : s.outstanding with
    | none =>
      constructor <;> simp [Slot.withdrawal, Slot.expressions, hs, hi, Paired, List.filterMap_cons,
        Action.cancel?, Action.express?]
    | some k =>
      obtain rfl : k = i := by
        have hk := h.interest_eq_ok hs
        rw [Slot.fresh_partition, hk] at hok
        exact Except.ok.inj hok
      constructor <;> simp [Slot.withdrawal, Slot.expressions, hs, hi, Paired,
        List.filterMap_cons, Action.cancel?, Action.express?]
  · exact ⟨True.intro, List.nil_sublist _, fun _ => rfl⟩

theorem refresh_all (now : Time) {slots : List Slot}
    (h : ∀ s ∈ slots, s.Sound d.basename d.config) :
    Accounted (slots.filterMap (·.outstanding))
      ((slots.map fun s => (s.refresh d.basename d.config now).1).filterMap (·.outstanding))
      (slots.flatMap fun s => (s.refresh d.basename d.config now).2) := by
  induction slots with
  | nil => exact ⟨True.intro, .slnil, fun _ => rfl⟩
  | cons s slots ih =>
    have hs := refresh_one now (h s List.mem_cons_self)
    have hrest := ih fun t ht => h t (List.mem_cons_of_mem s ht)
    have hall := hs.append hrest
    rwa [← List.filterMap_append, ← List.filterMap_append] at hall

theorem accounted_start (now : Time) (h : d.Sound) :
    Accounted d.outstanding (d.start now).1.outstanding (d.start now).2 := by
  by_cases hphase : d.phase = .created
  · have hnone := h.outstanding_eq_nil (by simp [hphase])
    rw [hnone, start_eq hphase]
    refine ⟨paired_expressions _, ?_, fun j => ?_⟩
    · rw [cancel?_expressions]
    · rw [cancel?_expressions, express?_expressions]
      exact Nat.add_comm _ _
  · rw [start, if_neg hphase]
    exact ⟨True.intro, List.nil_sublist _, fun _ => rfl⟩

theorem refresh_accounted (now : Time) (h : d.Sound) (hrun : d.isRunning = true) :
    Accounted d.outstanding (d.refresh now).1.outstanding (d.refresh now).2 := by
  obtain ⟨hslots, hactions⟩ := @refresh_eq d now hrun
  rw [outstanding, outstanding, hslots, hactions]
  exact refresh_all now h.slots

theorem cancel?_withdrawals (slots : List Slot) :
    (slots.flatMap Slot.withdrawal).filterMap Action.cancel? =
      slots.filterMap (·.outstanding) := by
  induction slots with
  | nil => rfl
  | cons s slots ih =>
    rw [List.flatMap_cons, List.filterMap_append, ih, List.filterMap_cons]
    cases hs : s.outstanding <;> simp [Slot.withdrawal, hs, Action.cancel?]

theorem start_isRunning (hphase : d.phase ≠ .stopped) :
    (d.start now).1.isRunning = true := by
  cases hd : d.phase with
  | created => simp [start, hd, eachSlot, isRunning]
  | running => simp [start, hd, isRunning]
  | stopped => exact absurd hd hphase

@[simp] theorem stop_phase (d : Discovery) : d.stop.1.phase = .stopped := by
  by_cases hphase : d.phase = .stopped
  · rw [stop_stopped hphase, hphase]
  · rw [stop_eq hphase]

theorem stop_cancels (hphase : d.phase ≠ .stopped) :
    d.stop.2.filterMap Action.cancel? = d.outstanding := by
  rw [stop_eq hphase]
  exact cancel?_withdrawals d.slots

/-- The discovery has taken nothing in. -/
structure Level (d d' : Discovery) : Prop where
  same : SameTask d d'
  partitions : d'.slots.map (·.partition) = d.slots.map (·.partition)

structure Unmoved (d d' : Discovery) : Prop extends Level d d' where
  phase : d'.phase = d.phase

/-- The same Interests are outstanding, and the same versions excluded. -/
structure Alike (d d' : Discovery) : Prop extends Unmoved d d' where
  sound : d'.Sound
  outstanding : d'.outstanding = d.outstanding
  live : (∀ s ∈ d.slots, s.outstanding ≠ none) → ∀ s ∈ d'.slots, s.outstanding ≠ none

variable {d' : Discovery}

theorem Level.refl (d : Discovery) : Level d d := ⟨.refl d, rfl⟩

theorem Level.excluded (h : Level d d') (v : Version) : d'.isExcluded v = d.isExcluded v :=
  isExcluded_congr h.partitions v

theorem Unmoved.refl (d : Discovery) : Unmoved d d := ⟨.refl d, rfl⟩

theorem Alike.refl (h : d.Sound) : Alike d d := ⟨.refl d, h, rfl, id⟩

theorem Alike.cancelled (h : d.Sound) : Alike d d.cancelled :=
  ⟨⟨⟨⟨rfl, rfl, rfl, rfl⟩, rfl⟩, rfl⟩, cancelled_sound h, rfl, id⟩

theorem Alike.settled (h : d.Sound) : Alike d (d.settled i).1 := by
  obtain ⟨hsame, hphase⟩ := settled_frame d i
  refine ⟨⟨⟨hsame, partitions_settled d⟩, hphase⟩, settled_sound h, outstanding_settled d i, ?_⟩
  rw [settled_slots]
  exact id

theorem fresh_outstanding (now : Time) {s : Slot} (h : s.Sound d.basename d.config)
    (hi : s.outstanding = some i) :
    (Slot.fresh d.basename d.config now s.partition).outstanding = some i := by
  rw [Slot.fresh_eq (h.interest_eq_ok hi)]

theorem Alike.renew {pre post : List Slot} {s : Slot} (h : d.Sound) (hd' : d'.Sound)
    (hsame : SameTask d d') (hphase : d'.phase = d.phase) (hslots : d.slots = pre ++ s :: post)
    (hslots' : d'.slots = pre ++ Slot.fresh d.basename d.config now s.partition :: post)
    (hs : s.outstanding = some i) : Alike d d' := by
  have hfresh := fresh_outstanding now (h.slot hslots) hs
  refine ⟨⟨⟨hsame, by simp [hslots, hslots']⟩, hphase⟩, hd', ?_, fun hlive t ht => ?_⟩
  · rw [outstanding_append hslots, outstanding_append hslots', List.filterMap_cons,
      List.filterMap_cons, hfresh, hs]
  · rw [hslots', List.mem_append, List.mem_cons] at ht
    rcases ht with ht | rfl | ht
    · exact hlive t (by simp [hslots, ht])
    · simp [hfresh]
    · exact hlive t (by simp [hslots, ht])

theorem timeout_asked (now : Time) (h : d.Sound) (hi : i ∈ d.outstanding) :
    Alike d (d.timeout now i).1 ∧ (d.timeout now i).2 = [.express i] := by
  have hrun := h.isRunning_of_outstanding hi
  obtain ⟨pre, s, post, hslots, hs, hask⟩ := exists_awaiting hi
  have hfresh := fresh_outstanding now (h.slot hslots) hs
  obtain ⟨hsame, hphase⟩ := @timeout_frame d now i
  have htimeout := @timeout_eq d now i pre post s hrun hslots hask
  refine ⟨.renew h (timeout_sound h) hsame hphase hslots (by rw [htimeout]) hs, ?_⟩
  rw [htimeout]
  simp [Slot.expressions, hfresh]

theorem refresh_outstanding (now : Time) {s : Slot} (h : s.Sound d.basename d.config)
    (hs : s.outstanding ≠ none) :
    (s.refresh d.basename d.config now).1.outstanding = s.outstanding := by
  obtain ⟨i, hi⟩ := Option.ne_none_iff_exists'.1 hs
  rw [s.refresh_eq]
  split
  · exact (fresh_outstanding now h hi).trans hi.symm
  · rfl

theorem Alike.refresh (now : Time) (h : d.Sound) (hrun : d.isRunning = true)
    (hlive : ∀ s ∈ d.slots, s.outstanding ≠ none) : Alike d (d.refresh now).1 := by
  obtain ⟨hslots, -⟩ := @refresh_eq d now hrun
  have hout : ∀ s ∈ d.slots,
      (s.refresh d.basename d.config now).1.outstanding = s.outstanding := fun s hs =>
    refresh_outstanding now (h.slots s hs) (hlive s hs)
  have hsum : (d.refresh now).1.outstanding = d.outstanding := by
    rw [Discovery.outstanding, hslots, List.filterMap_map, Discovery.outstanding]
    exact List.filterMap_congr hout
  obtain ⟨hsame, hphase⟩ := refresh_frame d now
  refine ⟨⟨⟨hsame, partitions_refresh⟩, hphase⟩, refresh_sound h, hsum, fun _ t ht => ?_⟩
  rw [hslots] at ht
  obtain ⟨s, hs, rfl⟩ := List.mem_map.1 ht
  rw [hout s hs]
  exact hlive s hs

end Discovery

end NamedContent
