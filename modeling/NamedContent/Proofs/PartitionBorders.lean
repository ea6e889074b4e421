import NamedContent.Proofs.PartitionFilter

/-!
The filter of a partition between its borders. The border below is the component of the version
before the lower bound, or the marker alone before the first version; the border above is the
component of the version after the upper bound, or that of the last version with a byte more. Of
all byte strings the filter admits those strictly between that have not been seen.

Versions that have a border above are those of 48 bits; nothing is said of others, which share
their components with these.
-/

namespace NamedContent

namespace Version

inductive BorderBelow : Version → Component → Prop where
  | first : BorderBelow .first [marker]
  | after {u v : Version} (h : u.ticks.toNat + 1 = v.ticks.toNat) : BorderBelow v u.toComponent

inductive BorderAbove : Version → Component → Prop where
  | before {v w : Version} (h : v.ticks.toNat + 1 = w.ticks.toNat) (hw : w.InRange) :
      BorderAbove v w.toComponent
  | last : BorderAbove .last (Version.last.toComponent ++ [0])

theorem BorderAbove.inRange {v : Version} {c : Component} (h : BorderAbove v c) : v.InRange := by
  cases h with
  | before h hw =>
    have hbound := inRange_iff.1 hw
    exact inRange_iff.2 (by omega)
  | last => exact le_iff.2 (Nat.le_refl _)

end Version

namespace Partition

/-- A partition and its borders: the bounds are in order, the versions excluded lie within them,
and the strays are no version components and lie between the borders. -/
structure Bordered (p : Partition) (lo hi : Component) : Prop where
  below : Version.BorderBelow p.lower lo
  above : Version.BorderAbove p.upper hi
  lower_le_upper : p.lower ≤ p.upper
  excluded_sorted : p.excluded.Pairwise (· < ·)
  excluded_within : ∀ v ∈ p.excluded, p.lower ≤ v ∧ v ≤ p.upper
  strays_sorted : p.strays.Pairwise (· < ·)
  strays_between : ∀ c ∈ p.strays, lo < c ∧ c < hi
  strays_foreign : ∀ c ∈ p.strays, Version.isComponent c = false

theorem below_eq_of_border {p : Partition} {lo : Component}
    (h : Version.BorderBelow p.lower lo) : p.below = lo := by
  rw [below]
  generalize p.lower = v at h
  cases h with
  | first => rfl
  | after hprev => rw [Version.prev?_eq_some_iff.2 hprev]

theorem above_eq_of_border {p : Partition} {hi : Component}
    (h : Version.BorderAbove p.upper hi) : p.above = hi := by
  rw [above]
  generalize p.upper = v at h
  cases h with
  | before hnext hw => rw [Version.next?_eq_some_iff.2 ⟨hnext, hw⟩]
  | last => rfl

theorem WellFormed.bordered {p : Partition} (h : p.WellFormed) : p.Bordered p.below p.above where
  below := by
    rw [Partition.below]
    split
    · rename_i u hprev
      exact .after (Version.prev?_eq_some_iff.1 hprev)
    · rename_i hnone
      have hfirst : p.lower = .first := Version.eq_iff.2 (Version.prev?_eq_none_iff.1 hnone)
      rw [hfirst]
      exact .first
  above := by
    rw [Partition.above]
    split
    · rename_i w hnext
      obtain ⟨hw, hwr⟩ := Version.next?_eq_some_iff.1 hnext
      exact .before hw hwr
    · rename_i hnone
      have hmax := Version.next?_eq_none_iff.1 hnone
      have hbound := Version.inRange_iff.1 h.upper_inRange
      have hlast : p.upper = .last := Version.eq_iff.2 (by
        rw [Version.ticks_last]
        omega)
      rw [hlast]
      exact .last
  lower_le_upper := h.lower_le_upper
  excluded_sorted := h.excluded_sorted
  excluded_within v hv := covers_iff.1 (h.excluded_covered v hv)
  strays_sorted := h.strays_sorted
  strays_between := h.strays_between
  strays_foreign := h.strays_foreign

namespace Bordered

variable {p : Partition} {lo hi : Component}

theorem wellFormed (h : p.Bordered lo hi) : p.WellFormed where
  lower_le_upper := h.lower_le_upper
  upper_inRange := h.above.inRange
  excluded_sorted := h.excluded_sorted
  excluded_covered v hv := covers_iff.2 (h.excluded_within v hv)
  strays_sorted := h.strays_sorted
  strays_between c hc := by
    rw [below_eq_of_border h.below, above_eq_of_border h.above]
    exact h.strays_between c hc
  strays_foreign := h.strays_foreign

theorem admits_iff (h : p.Bordered lo hi) (c : Component) :
    p.Admits c ↔ (lo < c ∧ c < hi) ∧ (∀ v ∈ p.excluded, v.toComponent ≠ c) ∧ c ∉ p.strays := by
  rw [Admits, below_eq_of_border h.below, above_eq_of_border h.above, List.mem_map]
  simp only [not_exists, not_and, ne_eq]

/-- The filter can be built. It admits what lies strictly between the borders, except the
components of the versions excluded and the strays; so of the versions it admits those within the
bounds that are not excluded. -/
theorem filter_exact (h : p.Bordered lo hi) :
    ∃ f, p.excludeFilter = .ok f ∧
      (∀ c, f.excludes c = false ↔
        (lo < c ∧ c < hi) ∧ (∀ v ∈ p.excluded, v.toComponent ≠ c) ∧ c ∉ p.strays) ∧
      ∀ v : Version, v.InRange →
        (f.excludes v.toComponent = false ↔ (p.lower ≤ v ∧ v ≤ p.upper) ∧ v ∉ p.excluded) := by
  obtain ⟨f, hf, hadmits⟩ := h.wellFormed.excludeFilter_eq_ok
  refine ⟨f, hf, fun c => ?_, fun v hv => ?_⟩
  · rw [hadmits, h.admits_iff]
  · rw [hadmits, h.wellFormed.admits_toComponent_iff hv, covers_iff]

end Bordered

def ending : Partition :=
  { lower := ⟨8⟩, upper := .last, excluded := [⟨8⟩, .last]
    strays := [Version.toComponent ⟨7⟩ ++ [0], Version.toComponent ⟨8⟩ ++ [1], [253, 255]] }

theorem ending_bordered :
    ending.Bordered (Version.toComponent ⟨7⟩) (Version.last.toComponent ++ [0]) :=
  ⟨.after (by decide), .last, by decide, by decide, by decide, by decide, by decide, by decide⟩

theorem filter_exact_sample :
    ending.Bordered (Version.toComponent ⟨7⟩) (Version.last.toComponent ++ [0]) ∧
      ∃ f, ending.excludeFilter = .ok f ∧
        (∀ c, f.excludes c = false ↔
          (Version.toComponent ⟨7⟩ < c ∧ c < Version.last.toComponent ++ [0]) ∧
            (∀ v ∈ ending.excluded, v.toComponent ≠ c) ∧ c ∉ ending.strays) ∧
        ∀ v : Version, v.InRange → (f.excludes v.toComponent = false ↔
          (⟨8⟩ ≤ v ∧ v ≤ .last) ∧ v ∉ ending.excluded) :=
  ⟨ending_bordered, ending_bordered.filter_exact⟩

end Partition

end NamedContent
