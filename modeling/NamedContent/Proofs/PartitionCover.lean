import NamedContent.Proofs.PartitionTiling

/-! The partitions that a set of exclusions starts with: they tile all versions, are well formed,
and hold the exclusions in their order, so many to each. Where a chunk of the exclusions ends, its
partition goes on up to the version before the next one, so adjacent exclusions, the first version
and the last are no exceptions. -/

namespace NamedContent.Partition

variable {more : Nat} {lower : Version} {versions : List Version}

theorem coverFrom_excluded :
    (coverFrom more lower versions).flatMap (·.excluded) = versions := by
  fun_induction coverFrom more lower versions with
  | case1 lower versions h => simp
  | case2 lower versions next rest h _ ih =>
    rw [List.flatMap_cons, ih, ← h, List.take_append_drop]

section Cut

variable {next : Version} {rest : List Version} (hcut : versions.drop (more + 1) = next :: rest)

include hcut

theorem take_append_of_cut : versions.take (more + 1) ++ next :: rest = versions := by
  rw [← hcut, List.take_append_drop]

theorem mem_of_cut {v : Version} (hv : v ∈ next :: rest) : v ∈ versions :=
  List.mem_of_mem_drop (hcut ▸ hv)

theorem sorted_of_cut (hsorted : versions.Pairwise (· < ·)) :
    (∀ v ∈ versions.take (more + 1), v < next) ∧ (next :: rest).Pairwise (· < ·) ∧
      ∀ v ∈ next :: rest, next ≤ v := by
  rw [← take_append_of_cut hcut, List.pairwise_append] at hsorted
  obtain ⟨-, hrest, hbelow⟩ := hsorted
  refine ⟨fun v hv => hbelow v hv next List.mem_cons_self, hrest, fun v hv => ?_⟩
  rw [Version.le_iff]
  rcases List.mem_cons.1 hv with rfl | hv
  · exact Nat.le_refl _
  · exact Nat.le_of_lt (Version.lt_iff.1 ((List.pairwise_cons.1 hrest).1 v hv))

theorem exists_prev_of_cut (hsorted : versions.Pairwise (· < ·)) (hlow : ∀ v ∈ versions, lower ≤ v)
    (hrange : ∀ v ∈ versions, v.InRange) :
    ∃ u, next.prev? = some u ∧ u.ticks.toNat + 1 = next.ticks.toNat ∧ lower ≤ u ∧ u.InRange := by
  obtain ⟨hbelow, -, -⟩ := sorted_of_cut hcut hsorted
  have hnext : next ∈ versions := mem_of_cut hcut List.mem_cons_self
  obtain ⟨head, hhead⟩ : ∃ head, head ∈ versions.take (more + 1) := by
    cases versions with
    | nil => simp at hnext
    | cons v vs => exact ⟨v, by simp⟩
  have hheadlow := Version.le_iff.1 (hlow head (List.mem_of_mem_take hhead))
  have hheadnext := Version.lt_iff.1 (hbelow head hhead)
  have hnr := Version.inRange_iff.1 (hrange next hnext)
  cases hp : next.prev? with
  | none =>
    have hfirst := Version.prev?_eq_none_iff.1 hp
    omega
  | some u =>
    have hprev := Version.prev?_eq_some_iff.1 hp
    exact ⟨u, rfl, hprev, Version.le_iff.2 (by omega), Version.inRange_iff.2 (by omega)⟩

theorem chunk_wellFormed {u : Version} (hsorted : versions.Pairwise (· < ·))
    (hlow : ∀ v ∈ versions, lower ≤ v) (hprev : u.ticks.toNat + 1 = next.ticks.toNat)
    (hlu : lower ≤ u) (hur : u.InRange) :
    WellFormed { lower, upper := u, excluded := versions.take (more + 1), strays := [] } := by
  obtain ⟨hbelow, -, -⟩ := sorted_of_cut hcut hsorted
  refine ⟨hlu, hur, hsorted.sublist (List.take_sublist _ _), ?_, List.Pairwise.nil, ?_, ?_⟩
  · intro v hv
    have hvn := Version.lt_iff.1 (hbelow v hv)
    have hvu : v ≤ u := Version.le_iff.2 (by omega)
    exact covers_iff.2 ⟨hlow v (List.mem_of_mem_take hv), hvu⟩
  · simp
  · simp

end Cut

theorem coverFrom_ordered (hsorted : versions.Pairwise (· < ·)) (hlow : ∀ v ∈ versions, lower ≤ v) :
    ∀ p ∈ coverFrom more lower versions,
      p.Ordered ∧ p.strays = [] ∧ p.excluded.length ≤ more + 1 := by
  fun_induction coverFrom more lower versions with
  | case1 lower versions h =>
    intro p hp
    obtain rfl := List.mem_singleton.1 hp
    exact ⟨⟨hsorted, hlow⟩, rfl, by simpa using h⟩
  | case2 lower versions next rest h _ ih =>
    obtain ⟨-, hrest, habove⟩ := sorted_of_cut h hsorted
    intro p hp
    rcases List.mem_cons.1 hp with rfl | hp
    · have hlow' : ∀ v ∈ versions.take (more + 1), lower ≤ v := fun v hv =>
        hlow v (List.mem_of_mem_take hv)
      exact ⟨⟨hsorted.sublist (List.take_sublist _ _), hlow'⟩, rfl, List.length_take_le _ _⟩
    · exact ih hrest habove p hp

theorem coverFrom_sound (hsorted : versions.Pairwise (· < ·)) (hlower : lower.InRange)
    (hlow : ∀ v ∈ versions, lower ≤ v) (hrange : ∀ v ∈ versions, v.InRange) :
    Tiles lower.ticks.toNat (2 ^ 48) (coverFrom more lower versions) ∧
      ∀ p ∈ coverFrom more lower versions, p.WellFormed := by
  fun_induction coverFrom more lower versions with
  | case1 lower versions h =>
    have hle : lower ≤ Version.last := hlower
    have hend : Version.last.ticks.toNat + 1 = 2 ^ 48 := by
      have hlast := Version.ticks_last
      omega
    refine ⟨⟨rfl, hle, hend⟩, fun p hp => ?_⟩
    obtain rfl := List.mem_singleton.1 hp
    refine ⟨hle, Version.le_iff.2 (Nat.le_refl _), hsorted, ?_, List.Pairwise.nil, ?_, ?_⟩
    · exact fun v hv => covers_iff.2 ⟨hlow v hv, hrange v hv⟩
    · simp
    · simp
  | case2 lower versions next rest h _ ih =>
    obtain ⟨-, hrest, habove⟩ := sorted_of_cut h hsorted
    have hnext : next.InRange := hrange next (mem_of_cut h List.mem_cons_self)
    obtain ⟨htiles, hparts⟩ := ih hrest hnext habove fun v hv => hrange v (mem_of_cut h hv)
    obtain ⟨u, hu, hprev, hlu, hur⟩ := exists_prev_of_cut h hsorted hlow hrange
    simp only [hu, Option.getD_some]
    refine ⟨⟨rfl, hlu, ?_⟩, fun p hp => ?_⟩
    · rwa [hprev]
    · rcases List.mem_cons.1 hp with rfl | hp
      · exact chunk_wellFormed h hsorted hlow hprev hlu hur
      · exact hparts p hp

variable {exclusions : List Version} (maxExcludes : Nat)

theorem cover_excluded (exclusions : List Version) :
    (cover exclusions maxExcludes).flatMap (·.excluded) = exclusions :=
  coverFrom_excluded

theorem cover_ordered (hsorted : exclusions.Pairwise (· < ·)) :
    ∀ p ∈ cover exclusions maxExcludes,
      p.Ordered ∧ p.strays = [] ∧ p.excluded.length ≤ max 1 (maxExcludes / 2) := by
  intro p hp
  have hlow : ∀ v ∈ exclusions, Version.first ≤ v := fun v _ => Version.le_iff.2 (by simp)
  obtain ⟨hordered, hstrays, hlen⟩ := coverFrom_ordered hsorted hlow p hp
  exact ⟨hordered, hstrays, by omega⟩

theorem cover_sound (hsorted : exclusions.Pairwise (· < ·))
    (hrange : ∀ v ∈ exclusions, v.InRange) :
    Tiles 0 (2 ^ 48) (cover exclusions maxExcludes) ∧
      ∀ p ∈ cover exclusions maxExcludes,
        p.WellFormed ∧ p.strays = [] ∧ p.excluded.length ≤ max 1 (maxExcludes / 2) := by
  have hfirst : Version.first.InRange := Version.inRange_iff.2 (by simp)
  have hlow : ∀ v ∈ exclusions, Version.first ≤ v := fun v _ => Version.le_iff.2 (by simp)
  obtain ⟨htiles, hparts⟩ :=
    @coverFrom_sound (maxExcludes / 2 - 1) _ _ hsorted hfirst hlow hrange
  exact ⟨htiles, fun p hp => ⟨hparts p hp, (cover_ordered maxExcludes hsorted p hp).2⟩⟩

/-- Partitions that follow one another from the first version to the last. Each exclusion stands
in one of them, the one whose bounds it lies within, and none holds more than `limit`. -/
structure Covering (exclusions : List Version) (limit : Nat) (ps : List Partition) : Prop where
  nonempty : ps ≠ []
  first_lower : ps.head?.map (·.lower) = some .first
  last_upper : ps.getLast?.map (·.upper) = some .last
  lower_le_upper : ∀ p ∈ ps, p.lower ≤ p.upper
  adjacent : ∀ pre p q post, ps = pre ++ p :: q :: post → p.upper.next? = some q.lower
  within : ∀ p ∈ ps, ∀ v ∈ p.excluded, p.lower ≤ v ∧ v ≤ p.upper
  placed_once : ∀ v ∈ exclusions, ∃ pre p post, ps = pre ++ p :: post ∧ v ∈ p.excluded ∧
    ∀ q ∈ pre ++ post, v ∉ q.excluded
  nothing_else : ∀ p ∈ ps, ∀ v ∈ p.excluded, v ∈ exclusions
  no_strays : ∀ p ∈ ps, p.strays = []
  limited : ∀ p ∈ ps, p.excluded.length ≤ limit

section Tiled

variable {ps : List Partition}

theorem Tiles.nonempty (h : Tiles 0 (2 ^ 48) ps) : ps ≠ [] := by
  rintro rfl
  rw [Tiles] at h
  omega

theorem Tiles.head_lower (h : Tiles 0 (2 ^ 48) ps) :
    ps.head?.map (·.lower) = some .first := by
  cases ps with
  | nil => exact absurd rfl h.nonempty
  | cons p ps =>
    obtain ⟨hlower, -, -⟩ := h
    rw [List.head?_cons, Option.map_some, Option.some.injEq, Version.eq_iff, hlower,
      Version.ticks_first]

theorem Tiles.getLast_upper (h : Tiles 0 (2 ^ 48) ps) :
    ps.getLast?.map (·.upper) = some .last := by
  cases hlast : ps.getLast? with
  | none => exact absurd (List.getLast?_eq_none_iff.1 hlast) h.nonempty
  | some p =>
    obtain ⟨pre, rfl⟩ := List.getLast?_eq_some_iff.1 hlast
    have hend := h.last_upper
    rw [Option.map_some, Option.some.injEq, Version.eq_iff, Version.ticks_last]
    omega

theorem Tiles.next_upper {pre post : List Partition} {p q : Partition}
    (h : Tiles 0 (2 ^ 48) (pre ++ p :: q :: post)) : p.upper.next? = some q.lower := by
  have hq := h.bounds (p := q) (by simp)
  have hle := Version.le_iff.1 hq.2.1
  refine Version.next?_eq_some_iff.2 ⟨h.adjacent, Version.inRange_iff.2 ?_⟩
  omega

theorem Tiles.placed_once (h : Tiles 0 (2 ^ 48) ps) (hwf : ∀ p ∈ ps, p.WellFormed)
    {p : Partition} (hp : p ∈ ps) {v : Version} (hv : v ∈ p.excluded) :
    ∃ pre p post, ps = pre ++ p :: post ∧ v ∈ p.excluded ∧
      ∀ q ∈ pre ++ post, v ∉ q.excluded := by
  obtain ⟨pre, post, rfl⟩ := List.append_of_mem hp
  refine ⟨pre, p, post, rfl, hv, fun q hq hvq => ?_⟩
  have hcov := (hwf p hp).excluded_covered v hv
  have hmem : q ∈ pre ++ p :: post := by
    rw [List.mem_append] at hq
    rw [List.mem_append, List.mem_cons]
    exact hq.imp_right .inr
  have hother := (hwf q hmem).excluded_covered v hvq
  rw [h.covers_eq_false hcov hq] at hother
  cases hother

end Tiled

/-- The partitions for a set of exclusions, whatever the limit on each that is asked for. -/
theorem cover_tiles_versions (hsorted : exclusions.Pairwise (· < ·))
    (hrange : ∀ v ∈ exclusions, v.InRange) :
    Covering exclusions (max 1 (maxExcludes / 2)) (cover exclusions maxExcludes) := by
  obtain ⟨htiles, hparts⟩ := cover_sound maxExcludes hsorted hrange
  have hmem : ∀ v, (∃ p ∈ cover exclusions maxExcludes, v ∈ p.excluded) ↔ v ∈ exclusions := by
    intro v
    rw [← List.mem_flatMap, cover_excluded]
  exact {
    nonempty := htiles.nonempty
    first_lower := htiles.head_lower
    last_upper := htiles.getLast_upper
    lower_le_upper := fun p hp => (hparts p hp).1.lower_le_upper
    adjacent := fun pre p q post heq => Tiles.next_upper (heq ▸ htiles)
    within := fun p hp v hv => covers_iff.1 ((hparts p hp).1.excluded_covered v hv)
    placed_once := by
      intro v hv
      obtain ⟨p, hp, hvp⟩ := (hmem v).2 hv
      exact htiles.placed_once (fun q hq => (hparts q hq).1) hp hvp
    nothing_else := fun p hp v hv => (hmem v).1 ⟨p, hp, hv⟩
    no_strays := fun p hp => (hparts p hp).2.1
    limited := fun p hp => (hparts p hp).2.2 }

theorem cover_tiles_versions_sample :
    cover [⟨0⟩, ⟨1⟩, ⟨9⟩, .last] 1 =
        [{ lower := .first, upper := ⟨0⟩, excluded := [⟨0⟩] },
          { lower := ⟨1⟩, upper := ⟨8⟩, excluded := [⟨1⟩] },
          { lower := ⟨9⟩, upper := ⟨0xFFFFFFFFFFFE⟩, excluded := [⟨9⟩] },
          { lower := .last, upper := .last, excluded := [.last] }] ∧
      Covering [⟨0⟩, ⟨1⟩, ⟨9⟩, .last] 1 (cover [⟨0⟩, ⟨1⟩, ⟨9⟩, .last] 1) :=
  ⟨by cbv, cover_tiles_versions 1 (by decide) (by decide)⟩

end NamedContent.Partition
