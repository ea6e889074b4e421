import NamedContent.Proofs.PastInterests

/-!
What a split leaves of a partition. It is refused where the lower bound is the only exclusion
there is, or there is none. Otherwise the halves meet at the median exclusion, each has the
exclusions it covers, and a component is asked for by one half or the other just if the whole
partition asked for it: a stray between the versions where the halves meet would be asked for by
both, so it stays with both.

A well-formed partition has its versions among those with a component, 48 bits wide. Nothing is
assumed of strays but that they are no version components and lie between the bounds.
-/

namespace NamedContent.Partition

/-- The halves of a partition: their bounds, what they exclude, and what they ask for. -/
structure SplitsInto (p l r : Partition) : Prop where
  lower_eq : l.lower = p.lower
  upper_eq : r.upper = p.upper
  pivot_median : p.excluded[p.excluded.length / 2]? = some r.lower
  upper_before_pivot : r.lower.prev? = some l.upper
  left_excluded : l.excluded = p.excluded.filter l.covers
  right_excluded : r.excluded = p.excluded.filter r.covers
  left_count : l.excluded.length = p.excluded.length / 2
  right_count : r.excluded.length = (p.excluded.length + 1) / 2
  filters : ∃ f fl fr, p.excludeFilter = .ok f ∧ l.excludeFilter = .ok fl ∧
    r.excludeFilter = .ok fr ∧
      ∀ c, f.excludes c = false ↔ fl.excludes c = false ∨ fr.excludes c = false

section Halves

variable {p l r : Partition}

theorem split?_bounds (hs : p.split? = some (l, r)) :
    l.lower = p.lower ∧ r.upper = p.upper ∧
      p.excluded[p.excluded.length / 2]? = some r.lower ∧ r.lower.prev? = some l.upper := by
  obtain ⟨pivot, u, hpivot, hu, -, rfl, rfl⟩ := split?_eq_some_iff.1 hs
  exact ⟨rfl, rfl, hpivot, hu⟩

theorem split?_of_excluded_nil (hp : p.excluded = []) : p.split? = none := by
  cases hs : p.split? with
  | none => rfl
  | some halves =>
    obtain ⟨pivot, u, hpivot, -⟩ := split?_eq_some_iff.1 hs
    rw [hp] at hpivot
    cases hpivot

theorem split?_of_excluded_lower (hp : p.excluded = [p.lower]) : p.split? = none := by
  cases hs : p.split? with
  | none => rfl
  | some halves =>
    obtain ⟨pivot, u, hpivot, hu, hle, -⟩ := split?_eq_some_iff.1 hs
    obtain rfl : p.lower = pivot := by simpa [hp] using hpivot
    have hprev := Version.prev?_eq_some_iff.1 hu
    rw [Version.lt_iff] at hle
    omega

end Halves

namespace WellFormed

variable {p l r : Partition}

theorem lower_of_split?_eq_none {v : Version} (h : p.WellFormed) (hp : p.excluded = [v])
    (hs : p.split? = none) : v = p.lower := by
  have hpivot : p.excluded[p.excluded.length / 2]? = some v := by simp [hp]
  have hlow := Version.le_iff.1 (covers_iff.1 (h.pivot_covered hpivot)).1
  refine Version.eq_iff.2 ?_
  cases hu : v.prev? with
  | none =>
    have hzero := Version.prev?_eq_none_iff.1 hu
    omega
  | some u =>
    have hprev := Version.prev?_eq_some_iff.1 hu
    by_contra hne
    have hle : ¬ u < p.lower := by
      rw [Version.lt_iff]
      omega
    have hsome := split?_eq_some_iff.2 ⟨v, u, hpivot, hu, hle, rfl, rfl⟩
    rw [hs] at hsome
    cases hsome

theorem split?_eq_none_iff (h : p.WellFormed) :
    p.split? = none ↔ p.excluded = [] ∨ p.excluded = [p.lower] := by
  constructor
  · intro hs
    have hlen := h.ordered.length_le_one_of_split?_eq_none hs
    cases hp : p.excluded with
    | nil => exact .inl rfl
    | cons v rest =>
      rw [hp, List.length_cons] at hlen
      obtain rfl : rest = [] := List.eq_nil_of_length_eq_zero (by omega)
      rw [h.lower_of_split?_eq_none hp hs]
      exact .inr rfl
  · rintro (hp | hp)
    · exact split?_of_excluded_nil hp
    · exact split?_of_excluded_lower hp

theorem left_excluded (h : p.WellFormed) (hs : p.split? = some (l, r)) :
    l.excluded = p.excluded.filter l.covers := by
  obtain ⟨pivot, u, -, hu, -, rfl, -⟩ := split?_eq_some_iff.1 hs
  have hprev := Version.prev?_eq_some_iff.1 hu
  refine List.filter_congr fun v hv => ?_
  have hlow := (covers_iff.1 (h.excluded_covered v hv)).1
  show decide (v < pivot) = (decide (p.lower ≤ v) && decide (v ≤ u))
  rw [decide_eq_true hlow, Bool.true_and, decide_eq_decide, Version.lt_iff, Version.le_iff]
  omega

theorem right_excluded (h : p.WellFormed) (hs : p.split? = some (l, r)) :
    r.excluded = p.excluded.filter r.covers := by
  obtain ⟨pivot, u, -, -, -, -, rfl⟩ := split?_eq_some_iff.1 hs
  refine List.filter_congr fun v hv => ?_
  have hhigh := (covers_iff.1 (h.excluded_covered v hv)).2
  show (!decide (v < pivot)) = (decide (pivot ≤ v) && decide (v ≤ p.upper))
  rw [decide_eq_true hhigh, Bool.and_true, ← decide_not, decide_eq_decide, Version.lt_iff,
    Version.le_iff]
  omega

theorem admits_half (h : p.WellFormed) (hs : p.split? = some (l, r)) {c : Component}
    (hc : p.Admits c) : l.Admits c ∨ r.Admits c := by
  obtain ⟨pivot, u, hpivot, hu, -, rfl, rfl⟩ := split?_eq_some_iff.1 hs
  obtain ⟨⟨hlow, hhigh⟩, hexcluded, hstrays⟩ := hc
  have hpr := h.inRange_of_covers (h.pivot_covered hpivot)
  have hprev := Version.prev?_eq_some_iff.1 hu
  have hnext : u.next? = some pivot := Version.next?_eq_some_iff.2 ⟨hprev, hpr⟩
  have hseen : pivot.toComponent ∈ p.excluded.map Version.toComponent :=
    List.mem_map_of_mem (List.mem_of_getElem? hpivot)
  rcases Bytes.lt_or_eq_or_lt c pivot.toComponent with hlt | heq | hgt
  · refine .inl ⟨⟨hlow, ?_⟩, fun hold => hexcluded ?_, fun hold => hstrays ?_⟩
    · rw [above_eq hnext]
      exact hlt
    · exact List.map_subset _ (List.filter_subset_self _) hold
    · exact (List.mem_filter.1 hold).1
  · exact absurd (heq ▸ hseen) hexcluded
  · have hur : u.InRange := Version.inRange_iff.2 (by
      have hbound := Version.inRange_iff.1 hpr
      omega)
    have hmeet : u.toComponent < pivot.toComponent :=
      (Version.toComponent_lt_iff hur hpr).2 (Version.lt_iff.2 (by omega))
    refine .inr ⟨⟨?_, hhigh⟩, fun hold => hexcluded ?_, fun hold => hstrays ?_⟩
    · rw [below_eq hu]
      exact Bytes.lt_trans hmeet hgt
    · exact List.map_subset _ (List.filter_subset_self _) hold
    · exact (List.mem_filter.1 hold).1

theorem admits_iff_halves (h : p.WellFormed) (hs : p.split? = some (l, r)) (c : Component) :
    p.Admits c ↔ l.Admits c ∨ r.Admits c := by
  refine ⟨h.admits_half hs, ?_⟩
  rintro (hc | hc)
  · exact (h.left_within hs).admits c hc
  · exact (h.right_within hs).admits c hc

theorem filters_of_halves (h : p.WellFormed) (hs : p.split? = some (l, r)) :
    ∃ f fl fr, p.excludeFilter = .ok f ∧ l.excludeFilter = .ok fl ∧ r.excludeFilter = .ok fr ∧
      ∀ c, f.excludes c = false ↔ fl.excludes c = false ∨ fr.excludes c = false := by
  obtain ⟨f, hf, hadmits⟩ := h.excludeFilter_eq_ok
  obtain ⟨fl, hfl, hleft⟩ := (h.split_left hs).excludeFilter_eq_ok
  obtain ⟨fr, hfr, hright⟩ := (h.split_right hs).excludeFilter_eq_ok
  refine ⟨f, fl, fr, hf, hfl, hfr, fun c => ?_⟩
  rw [hadmits, hleft, hright]
  exact h.admits_iff_halves hs c

/-- A split is refused only where one half would have no version, and otherwise asks for what the
partition asked for, no more and no less. -/
theorem split_preserves_requests (h : p.WellFormed) :
    (p.split? = none ↔ p.excluded = [] ∨ p.excluded = [p.lower]) ∧
      ∀ l r, p.split? = some (l, r) → p.SplitsInto l r := by
  refine ⟨h.split?_eq_none_iff, fun l r hs => ?_⟩
  obtain ⟨hlower, hupper, hpivot, hprev⟩ := split?_bounds hs
  obtain ⟨hleft, hright⟩ := h.split_length hs
  exact {
    lower_eq := hlower
    upper_eq := hupper
    pivot_median := hpivot
    upper_before_pivot := hprev
    left_excluded := h.left_excluded hs
    right_excluded := h.right_excluded hs
    left_count := hleft
    right_count := by omega
    filters := h.filters_of_halves hs }

end WellFormed

def spread : Partition :=
  { lower := .first, upper := .last, excluded := [⟨1⟩, ⟨2⟩, ⟨3⟩]
    strays := [Version.toComponent ⟨1⟩ ++ [0]] }

theorem spread_wellFormed : spread.WellFormed :=
  ⟨by decide, by decide, by decide, by decide, by decide, by decide, by decide⟩

theorem split_preserves_requests_sample :
    spread.WellFormed ∧
      ∃ l r, spread.split? = some (l, r) ∧ spread.SplitsInto l r ∧ l.strays = r.strays := by
  have hs : spread.split? = some
      ({ lower := .first, upper := ⟨1⟩, excluded := [⟨1⟩], strays := spread.strays },
        { lower := ⟨2⟩, upper := .last, excluded := [⟨2⟩, ⟨3⟩], strays := spread.strays }) := by
    decide
  exact ⟨spread_wellFormed, _, _, hs,
    spread_wellFormed.split_preserves_requests.2 _ _ hs, rfl⟩

end NamedContent.Partition
