import Mathlib.Data.List.Count
import NamedContent.Proofs.BooksSteps
import NamedContent.Proofs.RetrievalSight

/-! How often an Interest occurs among the duties of a retrieval, and how that goes together with
how often it is held. An Interest that is outstanding is held, or on its way back, or yet to be
expressed, but not twice, save as often as it is yet to be cancelled; one that is not is held no
oftener than it is yet to be cancelled or settled. -/

namespace NamedContent

namespace Duty

def interest : Duty → Interest
  | .cancel i => i
  | .express i => i
  | .settle i => i
  | .answer i => i

end Duty

section Counts

section Heads

variable (i j : Interest) (duties : List Duty)

theorem count_cancel_cons :
    (Duty.cancel i :: duties).count (.cancel j) = duties.count (.cancel j) + [i].count j ∧
    (Duty.cancel i :: duties).count (.express j) = duties.count (.express j) ∧
    (Duty.cancel i :: duties).count (.settle j) = duties.count (.settle j) ∧
    (Duty.cancel i :: duties).count (.answer j) = duties.count (.answer j) := by
  simp [List.count_cons]

theorem count_express_cons :
    (Duty.express i :: duties).count (.cancel j) = duties.count (.cancel j) ∧
    (Duty.express i :: duties).count (.express j) = duties.count (.express j) + [i].count j ∧
    (Duty.express i :: duties).count (.settle j) = duties.count (.settle j) ∧
    (Duty.express i :: duties).count (.answer j) = duties.count (.answer j) := by
  simp [List.count_cons]

theorem count_settle_cons :
    (Duty.settle i :: duties).count (.cancel j) = duties.count (.cancel j) ∧
    (Duty.settle i :: duties).count (.express j) = duties.count (.express j) ∧
    (Duty.settle i :: duties).count (.settle j) = duties.count (.settle j) + [i].count j ∧
    (Duty.settle i :: duties).count (.answer j) = duties.count (.answer j) := by
  simp [List.count_cons]

theorem count_answer_cons :
    (Duty.answer i :: duties).count (.cancel j) = duties.count (.cancel j) ∧
    (Duty.answer i :: duties).count (.express j) = duties.count (.express j) ∧
    (Duty.answer i :: duties).count (.settle j) = duties.count (.settle j) ∧
    (Duty.answer i :: duties).count (.answer j) = duties.count (.answer j) + [i].count j := by
  simp [List.count_cons]

end Heads

variable (actions : List Action) (j : Interest)

theorem count_cancel_map_duty :
    (actions.map Action.duty).count (.cancel j) =
      (actions.filterMap Action.cancel?).count j := by
  induction actions with
  | nil => rfl
  | cons action actions ih =>
    cases action <;> simp [Action.duty, Action.cancel?, List.filterMap_cons, List.count_cons, ih]

theorem count_express_map_duty :
    (actions.map Action.duty).count (.express j) =
      (actions.filterMap Action.express?).count j := by
  induction actions with
  | nil => rfl
  | cons action actions ih =>
    cases action <;> simp [Action.duty, Action.express?, List.filterMap_cons, List.count_cons, ih]

theorem mem_map_interest_duty :
    j ∈ (actions.map Action.duty).map Duty.interest ↔
      j ∈ actions.filterMap Action.express? ∨ j ∈ actions.filterMap Action.cancel? := by
  induction actions with
  | nil => simp
  | cons action actions ih =>
    rw [List.map_cons, List.map_cons, List.mem_cons, ih]
    cases action <;>
      simp only [Action.duty, Duty.interest, List.filterMap_cons, Action.express?, Action.cancel?,
        List.mem_cons, or_assoc, or_left_comm]

theorem count_others_map_duty :
    (actions.map Action.duty).count (.settle j) = 0 ∧
      (actions.map Action.duty).count (.answer j) = 0 := by
  induction actions with
  | nil => exact ⟨rfl, rfl⟩
  | cons action actions ih =>
    cases action <;> simpa [Action.duty] using ih

end Counts

/-- Behind each time that `j` is yet to be cancelled, what answers it or expresses it comes no
oftener than it is cancelled still, but for once. -/
def Spaced (j : Interest) (duties : List Duty) : Prop :=
  ∀ rest, .cancel j :: rest <:+ duties →
    rest.count (.answer j) + rest.count (.express j) ≤ 1 + rest.count (.cancel j)

namespace Spaced

variable {j : Interest} {duty : Duty} {duties pre : List Duty}

theorem tail (h : Spaced j (duty :: duties)) : Spaced j duties := fun rest hrest =>
  h rest (hrest.trans (List.suffix_cons duty duties))

theorem cons (h : Spaced j duties) (hne : duty ≠ .cancel j) : Spaced j (duty :: duties) := by
  intro rest hrest
  rcases List.suffix_cons_iff.1 hrest with heq | hrest
  · exact absurd (List.cons.inj heq).1.symm hne
  · exact h rest hrest

theorem append (h : Spaced j duties) (hnot : .cancel j ∉ pre) : Spaced j (pre ++ duties) := by
  induction pre with
  | nil => exact h
  | cons duty pre ih =>
    rw [List.mem_cons, not_or] at hnot
    exact (ih hnot.2).cons (Ne.symm hnot.1)

theorem of_count_le (h : duties.count (.answer j) + duties.count (.express j) ≤ 1) :
    Spaced j duties := by
  intro rest hrest
  have hsublist : rest.Sublist duties := ((List.suffix_cons _ rest).trans hrest).sublist
  have hanswers := hsublist.count_le (.answer j)
  have hexpressions := hsublist.count_le (.express j)
  omega

end Spaced

/-- What is held of the Interest `j`, set against what is outstanding and what is yet to be done. -/
structure Balanced (outstanding : List Interest) (held : Nat) (duties : List Duty)
    (j : Interest) : Prop where
  orphaned : j ∉ outstanding → held ≤ duties.count (.cancel j) + duties.count (.settle j)
  single : j ∈ outstanding → held + duties.count (.answer j) + duties.count (.express j) ≤
    1 + duties.count (.cancel j)
  spaced : j ∈ outstanding → Spaced j duties

namespace Balanced

variable {outstanding outstanding' : List Interest} {held : Nat} {pre duties : List Duty}
  {j : Interest}

theorem of_new (hj : j ∈ outstanding) (hduties : ∀ duty ∈ duties, duty.interest ≠ j)
    (hpre : pre.count (.answer j) + pre.count (.express j) ≤ 1) :
    Balanced outstanding 0 (pre ++ duties) j := by
  have hnone : ∀ duty : Duty, duty.interest = j → duties.count duty = 0 := fun duty heq =>
    List.count_eq_zero.2 fun hduty => hduties duty hduty heq
  have hone : (pre ++ duties).count (.answer j) + (pre ++ duties).count (.express j) ≤ 1 := by
    rw [List.count_append, List.count_append, hnone (.answer j) rfl, hnone (.express j) rfl]
    exact hpre
  exact ⟨fun hout => absurd hj hout, fun _ => by omega, fun _ => .of_count_le hone⟩

theorem prepend (h : Balanced outstanding held duties j)
    (hpre : pre.count (.answer j) + pre.count (.express j) = 0)
    (hstays : j ∈ outstanding' → j ∈ outstanding ∧ .cancel j ∉ pre)
    (hgoes : j ∉ outstanding' → j ∈ outstanding →
      held ≤ pre.count (.cancel j) + duties.count (.cancel j)) :
    Balanced outstanding' held (pre ++ duties) j := by
  refine ⟨fun hout => ?_, fun hout => ?_, fun hout => ?_⟩
  · rw [List.count_append, List.count_append]
    by_cases hin : j ∈ outstanding
    · have hle := hgoes hout hin
      omega
    · have hle := h.orphaned hin
      omega
  · have hle := h.single (hstays hout).1
    rw [List.count_append, List.count_append, List.count_append]
    omega
  · obtain ⟨hin, hnot⟩ := hstays hout
    exact (h.spaced hin).append hnot

end Balanced

end NamedContent
