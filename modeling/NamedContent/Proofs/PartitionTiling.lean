import NamedContent.Proofs.PartitionFilter

/-! Partitions that tile an interval of versions: one begins right after the other ends. Cutting
one of them in two keeps the tiling and what is excluded, and leaves each half with at most half
of the exclusions, rounded up. -/

namespace NamedContent.Partition

/-- The partitions, in order, hold the versions from `lo` ticks on and below `hi` ticks. -/
def Tiles : (lo hi : Nat) → List Partition → Prop
  | lo, hi, [] => lo = hi
  | lo, hi, p :: ps =>
    p.lower.ticks.toNat = lo ∧ p.lower ≤ p.upper ∧ Tiles (p.upper.ticks.toNat + 1) hi ps

theorem tiles_append {lo hi : Nat} {ps qs : List Partition} :
    Tiles lo hi (ps ++ qs) ↔ ∃ mid, Tiles lo mid ps ∧ Tiles mid hi qs := by
  induction ps generalizing lo with
  | nil => simp [Tiles]
  | cons p ps ih =>
    simp only [List.cons_append, Tiles, ih]
    constructor
    · rintro ⟨hlo, hle, mid, hps, hqs⟩
      exact ⟨mid, ⟨hlo, hle, hps⟩, hqs⟩
    · rintro ⟨mid, ⟨hlo, hle, hps⟩, hqs⟩
      exact ⟨hlo, hle, mid, hps, hqs⟩

namespace Tiles

variable {lo hi : Nat} {ps : List Partition}

theorem le (h : Tiles lo hi ps) : lo ≤ hi := by
  induction ps generalizing lo with
  | nil => exact Nat.le_of_eq h
  | cons p ps ih =>
    obtain ⟨hlo, hle, hps⟩ := h
    have hrest := ih hps
    rw [Version.le_iff] at hle
    omega

theorem bounds (h : Tiles lo hi ps) {p : Partition} (hp : p ∈ ps) :
    lo ≤ p.lower.ticks.toNat ∧ p.lower ≤ p.upper ∧ p.upper.ticks.toNat < hi := by
  induction ps generalizing lo with
  | nil => cases hp
  | cons q ps ih =>
    obtain ⟨hlo, hle, hps⟩ := h
    have hend := hps.le
    rcases List.mem_cons.1 hp with rfl | hp
    · exact ⟨Nat.le_of_eq hlo.symm, hle, hend⟩
    · obtain ⟨hq, hp⟩ := ih hps hp
      rw [Version.le_iff] at hle
      exact ⟨by omega, hp⟩

theorem exists_covers (h : Tiles lo hi ps) {v : Version} (hlo : lo ≤ v.ticks.toNat)
    (hhi : v.ticks.toNat < hi) : ∃ p ∈ ps, p.covers v = true := by
  induction ps generalizing lo with
  | nil =>
    rw [Tiles] at h
    omega
  | cons p ps ih =>
    obtain ⟨hp, hle, hps⟩ := h
    by_cases hv : v.ticks.toNat ≤ p.upper.ticks.toNat
    · refine ⟨p, List.mem_cons_self, covers_iff.2 ⟨?_, Version.le_iff.2 hv⟩⟩
      rw [Version.le_iff]
      omega
    · obtain ⟨q, hq, hcov⟩ := ih hps (by omega)
      exact ⟨q, List.mem_cons_of_mem p hq, hcov⟩

theorem adjacent {p q : Partition} {pre post : List Partition}
    (h : Tiles lo hi (pre ++ p :: q :: post)) :
    p.upper.ticks.toNat + 1 = q.lower.ticks.toNat := by
  obtain ⟨_, -, -, -, hnext, -⟩ := tiles_append.1 h
  exact hnext.symm

theorem last_upper {p : Partition} {pre : List Partition} (h : Tiles lo hi (pre ++ [p])) :
    p.upper.ticks.toNat + 1 = hi := by
  obtain ⟨_, -, -, -, hend⟩ := tiles_append.1 h
  exact hend

theorem pairwise (h : Tiles lo hi ps) : ps.Pairwise fun p q => p.upper < q.lower := by
  induction ps generalizing lo with
  | nil => exact List.Pairwise.nil
  | cons p ps ih =>
    obtain ⟨-, -, hps⟩ := h
    refine List.pairwise_cons.2 ⟨fun q hq => ?_, ih hps⟩
    have hq := (hps.bounds hq).1
    rw [Version.lt_iff]
    omega

theorem covers_eq_false {p : Partition} {pre post : List Partition}
    (h : Tiles lo hi (pre ++ p :: post)) {v : Version} (hv : p.covers v = true) {q : Partition}
    (hq : q ∈ pre ++ post) : q.covers v = false := by
  obtain ⟨-, hpost, hpre⟩ := List.pairwise_append.1 h.pairwise
  obtain ⟨hlow, hhigh⟩ := covers_iff.1 hv
  rw [Version.le_iff] at hlow hhigh
  rw [← Bool.not_eq_true, covers_iff, Version.le_iff, Version.le_iff]
  rcases List.mem_append.1 hq with hq | hq
  · have hlt := Version.lt_iff.1 (hpre q hq p List.mem_cons_self)
    omega
  · have hlt := Version.lt_iff.1 ((List.pairwise_cons.1 hpost).1 q hq)
    omega

theorem replace {p : Partition} {pre news post : List Partition}
    (h : Tiles lo hi (pre ++ p :: post))
    (hnews : Tiles p.lower.ticks.toNat (p.upper.ticks.toNat + 1) news) :
    Tiles lo hi (pre ++ news ++ post) := by
  obtain ⟨mid, hpre, hlo, -, hpost⟩ := tiles_append.1 h
  subst hlo
  exact tiles_append.2 ⟨_, tiles_append.2 ⟨_, hpre, hnews⟩, hpost⟩

end Tiles

theorem tiles_singleton {p : Partition} (h : p.lower ≤ p.upper) :
    Tiles p.lower.ticks.toNat (p.upper.ticks.toNat + 1) [p] :=
  ⟨rfl, h, rfl⟩

theorem above_eq {p : Partition} {w : Version} (h : p.upper.next? = some w) :
    p.above = w.toComponent := by
  simp [above, h]

theorem below_eq {p : Partition} {u : Version} (h : p.lower.prev? = some u) :
    p.below = u.toComponent := by
  simp [below, h]

/-- What a split is made of: the median exclusion and the version before it. -/
theorem split?_eq_some_iff {p l r : Partition} :
    p.split? = some (l, r) ↔ ∃ pivot leftUpper : Version,
      p.excluded[p.excluded.length / 2]? = some pivot ∧ pivot.prev? = some leftUpper ∧
      ¬ leftUpper < p.lower ∧
      l = { lower := p.lower, upper := leftUpper
            excluded := p.excluded.filter fun v => decide (v < pivot)
            strays := p.strays.filter fun s => decide (s < pivot.toComponent) } ∧
      r = { lower := pivot, upper := p.upper
            excluded := p.excluded.filter fun v => !decide (v < pivot)
            strays := p.strays.filter fun s => decide (leftUpper.toComponent < s) } := by
  simp only [split?, Option.bind_eq_bind, Option.bind_eq_some_iff, Option.ite_none_left_eq_some,
    Option.pure_def, Option.some.injEq, Prod.mk.injEq]
  constructor
  · rintro ⟨pivot, hpivot, u, hu, hle, rfl, rfl⟩
    exact ⟨pivot, u, hpivot, hu, hle, rfl, rfl⟩
  · rintro ⟨pivot, u, hpivot, hu, hle, rfl, rfl⟩
    exact ⟨pivot, hpivot, u, hu, hle, rfl, rfl⟩

namespace WellFormed

variable {p l r : Partition}

theorem pivot_covered (h : p.WellFormed) {pivot : Version} {k : Nat}
    (hpivot : p.excluded[k]? = some pivot) : p.covers pivot = true :=
  h.excluded_covered pivot (List.mem_of_getElem? hpivot)

theorem split_left (h : p.WellFormed) (hs : p.split? = some (l, r)) : l.WellFormed := by
  obtain ⟨pivot, u, hpivot, hu, hle, rfl, -⟩ := split?_eq_some_iff.1 hs
  have hpr := h.inRange_of_covers (h.pivot_covered hpivot)
  have hprev := Version.prev?_eq_some_iff.1 hu
  have hnext : u.next? = some pivot := Version.next?_eq_some_iff.2 ⟨hprev, hpr⟩
  rw [Version.inRange_iff] at hpr
  rw [Version.lt_iff] at hle
  refine ⟨?_, ?_, h.excluded_sorted.filter _, ?_, h.strays_sorted.filter _, ?_, ?_⟩
  · show p.lower ≤ u
    rw [Version.le_iff]
    omega
  · show u.InRange
    rw [Version.inRange_iff]
    omega
  · intro v hv
    obtain ⟨hmem, hlt⟩ := List.mem_filter.1 hv
    have hlow := (covers_iff.1 (h.excluded_covered v hmem)).1
    have hlt := Version.lt_iff.1 (of_decide_eq_true hlt)
    refine covers_iff.2 ⟨hlow, Version.le_iff.2 ?_⟩
    show v.ticks.toNat ≤ u.ticks.toNat
    omega
  · intro c hc
    obtain ⟨hmem, hlt⟩ := List.mem_filter.1 hc
    rw [above_eq hnext]
    exact ⟨(h.strays_between c hmem).1, of_decide_eq_true hlt⟩
  · intro c hc
    exact h.strays_foreign c (List.mem_filter.1 hc).1

theorem split_right (h : p.WellFormed) (hs : p.split? = some (l, r)) : r.WellFormed := by
  obtain ⟨pivot, u, hpivot, hu, -, -, rfl⟩ := split?_eq_some_iff.1 hs
  have hcov := covers_iff.1 (h.pivot_covered hpivot)
  refine ⟨hcov.2, h.upper_inRange, h.excluded_sorted.filter _, ?_, h.strays_sorted.filter _, ?_, ?_⟩
  · intro v hv
    obtain ⟨hmem, hle⟩ := List.mem_filter.1 hv
    have hhigh := (covers_iff.1 (h.excluded_covered v hmem)).2
    rw [Bool.not_eq_true', decide_eq_false_iff_not, Version.lt_iff] at hle
    refine covers_iff.2 ⟨Version.le_iff.2 ?_, hhigh⟩
    show pivot.ticks.toNat ≤ v.ticks.toNat
    omega
  · intro c hc
    obtain ⟨hmem, hlt⟩ := List.mem_filter.1 hc
    rw [below_eq hu]
    exact ⟨of_decide_eq_true hlt, (h.strays_between c hmem).2⟩
  · intro c hc
    exact h.strays_foreign c (List.mem_filter.1 hc).1

theorem split_tiles (h : p.WellFormed) (hs : p.split? = some (l, r)) :
    Tiles p.lower.ticks.toNat (p.upper.ticks.toNat + 1) [l, r] := by
  have hl := (h.split_left hs).lower_le_upper
  have hr := (h.split_right hs).lower_le_upper
  obtain ⟨pivot, u, -, hu, -, rfl, rfl⟩ := split?_eq_some_iff.1 hs
  have hprev := Version.prev?_eq_some_iff.1 hu
  exact ⟨rfl, hl, hprev.symm, hr, rfl⟩

end WellFormed

/-- The exclusions are in order and none lies below the partition. That much holds of versions of
any width, and bounds the halves of a split. -/
structure Ordered (p : Partition) : Prop where
  sorted : p.excluded.Pairwise (· < ·)
  lower_le : ∀ v ∈ p.excluded, p.lower ≤ v

theorem WellFormed.ordered {p : Partition} (h : p.WellFormed) : p.Ordered :=
  ⟨h.excluded_sorted, fun v hv => (covers_iff.1 (h.excluded_covered v hv)).1⟩

namespace Ordered

variable {p l r : Partition}

theorem split_left (h : p.Ordered) (hs : p.split? = some (l, r)) : l.Ordered := by
  obtain ⟨pivot, u, -, -, -, rfl, -⟩ := split?_eq_some_iff.1 hs
  exact ⟨h.sorted.filter _, fun v hv => h.lower_le v (List.mem_filter.1 hv).1⟩

theorem split_right (h : p.Ordered) (hs : p.split? = some (l, r)) : r.Ordered := by
  obtain ⟨pivot, u, -, -, -, -, rfl⟩ := split?_eq_some_iff.1 hs
  refine ⟨h.sorted.filter _, fun v hv => ?_⟩
  have hnot := (List.mem_filter.1 hv).2
  rw [Bool.not_eq_true', decide_eq_false_iff_not, Version.lt_iff] at hnot
  exact Version.le_iff.2 (Nat.le_of_not_lt hnot)

theorem split_length (h : p.Ordered) (hs : p.split? = some (l, r)) :
    l.excluded.length = p.excluded.length / 2 ∧
      r.excluded.length = p.excluded.length - p.excluded.length / 2 := by
  obtain ⟨pivot, u, hpivot, -, -, rfl, rfl⟩ := split?_eq_some_iff.1 hs
  obtain ⟨hleft, hright⟩ := SortedList.filter_lt_getElem h.sorted hpivot
  refine ⟨?_, ?_⟩
  · show (p.excluded.filter _).length = _
    rw [hleft, List.length_take]
    omega
  · show (p.excluded.filter _).length = _
    rw [hright, List.length_drop]

theorem length_le_one_of_split?_eq_none (h : p.Ordered) (hs : p.split? = none) :
    p.excluded.length ≤ 1 := by
  by_contra hlen
  obtain ⟨pivot, hpivot⟩ : ∃ pivot, p.excluded[p.excluded.length / 2]? = some pivot :=
    ⟨_, List.getElem?_eq_getElem (by omega)⟩
  -- The first exclusion lies below the median, so the left half is not empty.
  obtain ⟨least, hleast⟩ : ∃ least, p.excluded[0]? = some least :=
    ⟨_, List.getElem?_eq_getElem (by omega)⟩
  have hfirst : least < pivot := by
    obtain ⟨h0, rfl⟩ := List.getElem?_eq_some_iff.1 hleast
    obtain ⟨hk, rfl⟩ := List.getElem?_eq_some_iff.1 hpivot
    exact List.pairwise_iff_getElem.1 h.sorted 0 _ h0 hk (by omega)
  have hlow := h.lower_le least (List.mem_of_getElem? hleast)
  rw [Version.lt_iff] at hfirst
  rw [Version.le_iff] at hlow
  cases hu : pivot.prev? with
  | none =>
    have := Version.prev?_eq_none_iff.1 hu
    omega
  | some u =>
    have hprev := Version.prev?_eq_some_iff.1 hu
    have hle : ¬ u < p.lower := by
      rw [Version.lt_iff]
      omega
    have hsome := split?_eq_some_iff.2 ⟨pivot, u, hpivot, hu, hle, rfl, rfl⟩
    rw [hs] at hsome
    cases hsome

end Ordered

theorem WellFormed.split_length {p l r : Partition} (h : p.WellFormed)
    (hs : p.split? = some (l, r)) :
    l.excluded.length = p.excluded.length / 2 ∧
      r.excluded.length = p.excluded.length - p.excluded.length / 2 :=
  h.ordered.split_length hs

theorem mem_excluded_of_split? {p l r : Partition} (hs : p.split? = some (l, r)) {v : Version} :
    v ∈ l.excluded ∨ v ∈ r.excluded ↔ v ∈ p.excluded := by
  obtain ⟨pivot, u, -, -, -, rfl, rfl⟩ := split?_eq_some_iff.1 hs
  by_cases hlt : v < pivot <;> simp [hlt]

/-- What takes the place of a partition that has grown: its halves if it is too large and can be
split, or else itself. -/
def parts (p : Partition) (maxExcludes : Nat) : List Partition :=
  if p.needsSplit maxExcludes then
    match p.split? with
    | none => [p]
    | some (left, right) => [left, right]
  else [p]

theorem parts_eq (p : Partition) (maxExcludes : Nat) :
    p.parts maxExcludes = [p] ∧
        (p.needsSplit maxExcludes = true → p.split? = none) ∨
      ∃ l r, p.split? = some (l, r) ∧ p.parts maxExcludes = [l, r] := by
  unfold parts
  split
  · cases hs : p.split? with
    | none => exact .inl ⟨rfl, fun _ => rfl⟩
    | some halves => exact .inr ⟨halves.1, halves.2, rfl, rfl⟩
  · rename_i hn
    exact .inl ⟨rfl, fun h => absurd h hn⟩

theorem forall_mem_parts {P : Partition → Prop} {p : Partition} {maxExcludes : Nat} (h : P p)
    (hsplit : ∀ l r, p.split? = some (l, r) → P l ∧ P r) : ∀ q ∈ p.parts maxExcludes, P q := by
  intro q hq
  rcases parts_eq p maxExcludes with ⟨heq, -⟩ | ⟨l, r, hs, heq⟩
  · rw [heq, List.mem_singleton] at hq
    exact hq ▸ h
  · rw [heq, List.mem_cons, List.mem_singleton] at hq
    rcases hq with rfl | rfl
    · exact (hsplit _ _ hs).1
    · exact (hsplit _ _ hs).2

theorem mem_excluded_parts {p : Partition} {maxExcludes : Nat} {v : Version} :
    (∃ q ∈ p.parts maxExcludes, v ∈ q.excluded) ↔ v ∈ p.excluded := by
  rcases parts_eq p maxExcludes with ⟨heq, -⟩ | ⟨l, r, hs, heq⟩
  · simp [heq]
  · simp [heq, ← mem_excluded_of_split? hs]

namespace WellFormed

variable {p q : Partition} {maxExcludes : Nat}

theorem of_mem_parts (h : p.WellFormed) (hq : q ∈ p.parts maxExcludes) : q.WellFormed :=
  forall_mem_parts h (fun _ _ hs => ⟨h.split_left hs, h.split_right hs⟩) q hq

theorem tiles_parts (h : p.WellFormed) :
    Tiles p.lower.ticks.toNat (p.upper.ticks.toNat + 1) (p.parts maxExcludes) := by
  rcases parts_eq p maxExcludes with ⟨heq, -⟩ | ⟨l, r, hs, heq⟩
  · rw [heq]
    exact tiles_singleton h.lower_le_upper
  · rw [heq]
    exact h.split_tiles hs

end WellFormed

namespace Ordered

variable {p q : Partition} {maxExcludes : Nat}

theorem of_mem_parts (h : p.Ordered) (hq : q ∈ p.parts maxExcludes) : q.Ordered :=
  forall_mem_parts h (fun _ _ hs => ⟨h.split_left hs, h.split_right hs⟩) q hq

theorem length_le_of_mem_parts (h : p.Ordered) (hmax : 1 ≤ maxExcludes)
    (hlen : p.excluded.length ≤ maxExcludes + 1) (hq : q ∈ p.parts maxExcludes) :
    q.excluded.length ≤ maxExcludes := by
  rcases parts_eq p maxExcludes with ⟨heq, hnone⟩ | ⟨l, r, hs, heq⟩
  · rw [heq, List.mem_singleton] at hq
    subst hq
    cases hn : q.needsSplit maxExcludes with
    | true =>
      have := h.length_le_one_of_split?_eq_none (hnone hn)
      omega
    | false =>
      simp only [needsSplit, decide_eq_false_iff_not] at hn
      omega
  · rw [heq, List.mem_cons, List.mem_singleton] at hq
    obtain ⟨hl, hr⟩ := h.split_length hs
    rcases hq with rfl | rfl <;> omega

end Ordered

theorem strays_length_le_of_mem_parts {p q : Partition} {maxExcludes : Nat}
    (hq : q ∈ p.parts maxExcludes) : q.strays.length ≤ p.strays.length := by
  refine forall_mem_parts (P := fun q => q.strays.length ≤ p.strays.length) (Nat.le_refl _)
    (fun l r hs => ?_) q hq
  obtain ⟨pivot, u, -, -, -, rfl, rfl⟩ := split?_eq_some_iff.1 hs
  exact ⟨List.length_filter_le _ _, List.length_filter_le _ _⟩

end NamedContent.Partition
