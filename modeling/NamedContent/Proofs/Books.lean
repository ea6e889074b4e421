import NamedContent.Proofs.AccountedMoves
import NamedContent.Proofs.TransportAnswers

/-! Books of Interests, between a discovery and a transport that may refuse to express, that others
use too, and that is left at any moment by a stop. As long as the discovery is not stopped, what is
outstanding and what is yet to be cancelled is, Interest by Interest, what the transport holds for
it and what is yet to be expressed, answered or timed out. Once it is stopped nothing is
outstanding, and all that the transport still holds for it is yet to be withdrawn. -/

namespace NamedContent

namespace Transport

variable {H : Type} {t t' : Transport H} {i j : Interest} {c : Content} {h : H}

theorem express_frame {r : Expression} (ht : t.express i h = (t', r)) :
    t'.store = t.store ∧ t'.pending = t.pending ++ (if r = .waiting then [⟨i, h⟩] else []) ∧
      ∀ c, r = .answered c → c ∈ t.store ∧ i.accepts .exactKey c = true := by
  rw [express] at ht
  split at ht
  · obtain ⟨rfl, rfl⟩ := Prod.mk.inj ht
    exact ⟨rfl, (List.append_nil _).symm, by simp⟩
  · dsimp only at ht
    split at ht
    · obtain ⟨rfl, rfl⟩ := Prod.mk.inj ht
      exact ⟨rfl, rfl, by simp⟩
    · rename_i b hbest
      obtain ⟨rfl, rfl⟩ := Prod.mk.inj ht
      refine ⟨rfl, (List.append_nil _).symm, ?_⟩
      rintro c ⟨⟩
      exact bestMatch_eq_some hbest

variable [DecidableEq H]

def heldFor (t : Transport H) (h : H) : List Interest :=
  (t.pending.filter (·.handler == h)).map (·.interest)

theorem count_heldFor (t : Transport H) (h : H) (j : Interest) :
    (t.heldFor h).count j = t.pending.count ⟨j, h⟩ := by
  rw [heldFor]
  induction t.pending with
  | nil => rfl
  | cons p ps ih =>
    obtain ⟨i, h'⟩ := p
    by_cases hh : h' = h <;> by_cases hi : i = j <;> simp [hh, hi, ih]

theorem mem_heldFor :
    i ∈ t.heldFor h ↔ ⟨i, h⟩ ∈ t.pending := by
  rw [← List.count_pos_iff, count_heldFor, List.count_pos_iff]

theorem count_heldFor_of_pending (hpending : t'.pending = t.pending) (h : H) (j : Interest) :
    (t'.heldFor h).count j = (t.heldFor h).count j := by
  rw [heldFor, hpending, heldFor]

theorem count_heldFor_waiting (ht : t.express i h = (t', .waiting)) (j : Interest) :
    (t'.heldFor h).count j = (t.heldFor h).count j + [i].count j := by
  rw [count_heldFor, count_heldFor, (express_frame ht).2.1, if_pos rfl, List.count_append]
  simp [List.count_singleton]

theorem count_heldFor_cancel (t : Transport H) (i : Interest) (h : H) (j : Interest) :
    ((t.cancel i h).heldFor h).count j = (t.heldFor h).count j - [i].count j := by
  rw [count_heldFor, count_heldFor, cancel]
  split
  · rw [List.count_erase]
    simp [List.count_singleton]
  · rename_i hnot
    by_cases hij : i = j
    · subst hij
      simp [List.count_eq_zero.2 hnot]
    · simp [hij]

theorem count_heldFor_publish {p : Pending H} (ht : t.publish c = (t', some p)) (h : H)
    (j : Interest) : (t.heldFor h).count j =
      (t'.heldFor h).count j + (if p.handler = h then [p.interest] else []).count j := by
  obtain ⟨-, -, hperm, -⟩ := publish_answers ht
  obtain ⟨i, h'⟩ := p
  rw [count_heldFor, count_heldFor, hperm.count_eq, List.count_cons]
  by_cases hh : h' = h <;> by_cases hi : i = j <;> simp [hh, hi]

end Transport

/-- What agrees until the stop, and what is left to withdraw after it. -/
structure Books (d : Discovery) (t : Transport Handler) (agenda : List Task) : Prop where
  sound : d.Sound
  layered : Layered d t agenda
  balance : d.phase ≠ .stopped → ∀ j, d.outstanding.count j + (cancels agenda).count j =
    (t.heldFor (.retrieval 0)).count j + (owed agenda).count j
  cancels_le : d.phase ≠ .stopped → ∀ j,
    (cancels agenda).count j ≤ (t.heldFor (.retrieval 0)).count j
  withdrawn : d.phase = .stopped → ∀ j,
    (t.heldFor (.retrieval 0)).count j ≤ (withdrawals agenda).count j

namespace Books

variable {d d' : Discovery} {t t' : Transport Handler} {task : Task} {agenda tasks rest : List Task}
  {i : Interest}

theorem outstanding_of_owed (h : Books d t (task :: rest)) (hopen : d.phase ≠ .stopped)
    (hi : i ∈ task.owed) : i ∈ d.outstanding := by
  have hbalance := h.balance hopen i
  have hle := h.cancels_le hopen i
  have hpos := List.count_pos_iff.2 hi
  rw [owed_cons, List.count_append] at hbalance
  exact List.count_pos_iff.1 (by omega)

theorem outstanding_of_held (h : Books d t agenda) (hopen : d.phase ≠ .stopped)
    (hi : i ∈ t.heldFor (.retrieval 0)) : i ∈ d.outstanding := by
  have hbalance := h.balance hopen i
  have hle := h.cancels_le hopen i
  have hcancels := h.layered.count_cancels_le hopen i
  have hpos := List.count_pos_iff.2 hi
  exact List.count_pos_iff.1 (by omega)

theorem held_or_owed (h : Books d t agenda) (hopen : d.phase ≠ .stopped)
    (hi : i ∈ d.outstanding) : i ∈ t.heldFor (.retrieval 0) ∨ i ∈ owed agenda := by
  have hbalance := h.balance hopen i
  have hpos := List.count_pos_iff.2 hi
  rw [← List.count_pos_iff, ← List.count_pos_iff]
  omega

theorem arriving {c : Content} (h : Books d t (.arrive (.retrieval 0) c i :: rest)) :
    c ∈ t.store ∧ i.accepts .exactKey c = true := by
  cases h.layered with
  | outermost houter => cases houter
  | nested hnested => exact hnested

theorem of_open_or_closed (hsound : d'.Sound) (hphase : d'.phase = d.phase)
    (hlayered : Layered d' t' agenda)
    (hopen : d.phase ≠ .stopped → ∀ j,
      d'.outstanding.count j + (cancels agenda).count j =
          (t'.heldFor (.retrieval 0)).count j + (owed agenda).count j ∧
        (cancels agenda).count j ≤ (t'.heldFor (.retrieval 0)).count j)
    (hclosed : d.phase = .stopped → ∀ j,
      (t'.heldFor (.retrieval 0)).count j ≤ (withdrawals agenda).count j) :
    Books d' t' agenda := by
  rw [← hphase] at hopen hclosed
  exact ⟨hsound, hlayered, fun hne j => (hopen hne j).1, fun hne j => (hopen hne j).2, hclosed⟩

/-- The first task is done, and what it leaves behind changes neither side of the books, whatever
the tasks after it are yet to cancel or to bring back: for those `x` and `y` stand. -/
theorem turn (h : Books d t (task :: rest)) (hsound : d'.Sound) (hphase : d'.phase = d.phase)
    (hlayered : Layered d' t' (tasks ++ rest))
    (hopen : d.phase ≠ .stopped → ∀ j x y,
      d.outstanding.count j + (task.cancels.count j + x) =
        (t.heldFor (.retrieval 0)).count j + (task.owed.count j + y) →
      task.cancels.count j + x ≤ (t.heldFor (.retrieval 0)).count j →
      d'.outstanding.count j + ((cancels tasks).count j + x) =
          (t'.heldFor (.retrieval 0)).count j + ((owed tasks).count j + y) ∧
        (cancels tasks).count j + x ≤ (t'.heldFor (.retrieval 0)).count j)
    (hclosed : d.phase = .stopped → ∀ j x,
      (t.heldFor (.retrieval 0)).count j ≤ task.withdrawals.count j + x →
      (t'.heldFor (.retrieval 0)).count j ≤ (withdrawals tasks).count j + x) :
    Books d' t' (tasks ++ rest) := by
  refine .of_open_or_closed hsound hphase hlayered (fun hne j => ?_) fun heq j => ?_
  · have hbalance := h.balance hne j
    have hle := h.cancels_le hne j
    rw [cancels_cons, owed_cons, List.count_append, List.count_append] at hbalance
    rw [cancels_cons, List.count_append] at hle
    rw [cancels_append, owed_append, List.count_append, List.count_append]
    exact hopen hne j _ _ hbalance hle
  · have hle := h.withdrawn heq j
    rw [withdrawals_cons, List.count_append] at hle
    rw [withdrawals_append, List.count_append]
    exact hclosed heq j _ hle

theorem turn_outermost (h : Books d t [task]) (houter : task.Outermost) (hsound : d'.Sound)
    (hphase : d'.phase = d.phase) (hlayered : Layered d' t' tasks)
    (hopen : d.phase ≠ .stopped → ∀ j,
      d.outstanding.count j = (t.heldFor (.retrieval 0)).count j + task.owed.count j →
      d'.outstanding.count j + (cancels tasks).count j =
          (t'.heldFor (.retrieval 0)).count j + (owed tasks).count j ∧
        (cancels tasks).count j ≤ (t'.heldFor (.retrieval 0)).count j)
    (hclosed : d.phase = .stopped → ∀ j, (t.heldFor (.retrieval 0)).count j = 0 →
      (t'.heldFor (.retrieval 0)).count j ≤ (withdrawals tasks).count j) :
    Books d' t' tasks := by
  refine .of_open_or_closed hsound hphase hlayered (fun hne j => ?_) fun heq j => ?_
  · have hbalance := h.balance hne j
    rw [cancels_cons, owed_cons, houter.cancels_eq, cancels_nil, owed_nil, List.append_nil,
      List.append_nil] at hbalance
    exact hopen hne j hbalance
  · have hle := h.withdrawn heq j
    rw [withdrawals_cons, houter.withdrawals_eq, withdrawals_nil, List.append_nil] at hle
    exact hclosed heq j (Nat.le_zero.1 hle)

theorem take_up (h : Books d t []) {c : Command} (hc : c.Manages) : Books d t [.command c] :=
  ⟨h.sound, .outermost hc, h.balance, h.cancels_le, h.withdrawn⟩

theorem created (h : d.Sound) (hphase : d.phase = .created)
    (hnone : ∀ p ∈ t.pending, p.handler ≠ .retrieval 0) : Books d t [] := by
  have hout : d.outstanding = [] := h.outstanding_eq_nil (by simp [hphase])
  have hheld : t.heldFor (.retrieval 0) = [] := List.eq_nil_iff_forall_not_mem.2 fun i hi =>
    hnone _ (Transport.mem_heldFor.1 hi) rfl
  refine ⟨h, .nil, fun _ j => ?_, fun _ j => Nat.zero_le _, fun hstopped => ?_⟩
  · rw [hout, hheld]
    rfl
  · rw [hphase] at hstopped
    cases hstopped

end Books

end NamedContent
