import NamedContent.Partition
import NamedContent.Proofs.ExcludeElements
import NamedContent.Proofs.SortedSets

/-! What the exclude filter of a partition admits: the components strictly between its two
boundary components that have not been seen. A partition is well formed if what it has seen lies
between its bounds, and then its filter can be built. -/

namespace NamedContent

namespace ExcludeFilter

theorem fault?_components (i : Nat) (p : Component) (cs : List Component) (afterAny : Bool)
    (h : (p :: cs).Pairwise (· < ·)) (hany : cs = [] → afterAny = false) :
    fault? i (some p) afterAny (cs.map .component ++ [.any]) = none := by
  induction cs generalizing i p afterAny with
  | nil => simp [fault?, hany rfl]
  | cons c cs ih =>
    obtain ⟨hp, hcs⟩ := List.pairwise_cons.1 h
    have hpc : p < c := hp c List.mem_cons_self
    simp only [List.map_cons, List.cons_append, fault?, if_neg (Bytes.ne_of_lt hpc).symm,
      if_neg (Bytes.lt_asymm hpc)]
    exact ih (i + 1) c false hcs fun _ => rfl

theorem componentsOf_components (cs : List Component) :
    componentsOf (cs.map .component ++ [.any]) = cs := by
  rw [componentsOf_append, componentsOf_map_component]
  exact List.append_nil cs

theorem rangesOf_components (cs : List Component) :
    rangesOf false (cs.map .component ++ [.any]) = List.replicate cs.length false ++ [true] := by
  induction cs with
  | nil => rfl
  | cons c cs ih => simp [rangesOf, ih, List.replicate_succ]

theorem hits_closed {x top : Component} {cs : List Component}
    (h : (cs ++ [top]).Pairwise (· < ·)) :
    hits x (cs ++ [top]) (List.replicate (cs.length + 1) false ++ [true]) = true ↔
      x ∈ cs ∨ ¬ x < top := by
  induction cs with
  | nil =>
    simp only [List.nil_append, List.length_nil, Nat.zero_add, List.replicate_one,
      List.cons_append, hits, List.not_mem_nil, false_or]
    cases ho : Bytes.order x top with
    | lt => simp [Bytes.order_eq_lt_iff.1 ho]
    | eq => simp [Bytes.order_eq_eq_iff.1 ho, Bytes.lt_irrefl]
    | gt => simp [Bytes.lt_asymm (Bytes.order_eq_gt_iff.1 ho)]
  | cons c cs ih =>
    obtain ⟨hc, hcs⟩ := List.pairwise_cons.1 h
    rw [List.cons_append, List.length_cons, List.replicate_succ, List.cons_append, hits]
    cases ho : Bytes.order x c with
    | lt =>
      have hxc := Bytes.order_eq_lt_iff.1 ho
      have hmem : x ∉ cs := fun hx =>
        Bytes.lt_asymm hxc (hc x (List.mem_append_left _ hx))
      have htop : x < top := Bytes.lt_trans hxc (hc top (by simp))
      simp [Bytes.ne_of_lt hxc, hmem, htop]
    | eq => simp [Bytes.order_eq_eq_iff.1 ho]
    | gt =>
      have hne : x ≠ c := (Bytes.ne_of_lt (Bytes.order_eq_gt_iff.1 ho)).symm
      simp [ih hcs, hne]

end ExcludeFilter

namespace Partition

/-- The bounds are in order and have components, and all that has been seen lies between. -/
structure WellFormed (p : Partition) : Prop where
  lower_le_upper : p.lower ≤ p.upper
  upper_inRange : p.upper.InRange
  excluded_sorted : p.excluded.Pairwise (· < ·)
  excluded_covered : ∀ v ∈ p.excluded, p.covers v = true
  strays_sorted : p.strays.Pairwise (· < ·)
  strays_between : ∀ c ∈ p.strays, p.below < c ∧ c < p.above
  strays_foreign : ∀ c ∈ p.strays, Version.isComponent c = false

/-- The component lies between the bounds and has not been seen. -/
def Admits (p : Partition) (c : Component) : Prop :=
  (p.below < c ∧ c < p.above) ∧ c ∉ p.excluded.map Version.toComponent ∧ c ∉ p.strays

theorem covers_iff {p : Partition} {v : Version} :
    p.covers v = true ↔ p.lower ≤ v ∧ v ≤ p.upper := by
  simp [covers]

namespace WellFormed

variable {p : Partition}

theorem inRange_of_covers (h : p.WellFormed) {v : Version} (hv : p.covers v = true) :
    v.InRange := by
  have hup := Version.inRange_iff.1 h.upper_inRange
  have hle := Version.le_iff.1 (covers_iff.1 hv).2
  exact Version.inRange_iff.2 (by omega)

theorem lower_inRange (h : p.WellFormed) : p.lower.InRange := by
  have hle := h.lower_le_upper
  exact h.inRange_of_covers (covers_iff.2 ⟨Version.le_iff.2 (Nat.le_refl _), hle⟩)

theorem below_lt_toComponent_iff (h : p.WellFormed) {v : Version} (hv : v.InRange) :
    p.below < v.toComponent ↔ p.lower ≤ v := by
  have hlow := Version.inRange_iff.1 h.lower_inRange
  rw [Version.le_iff, below]
  split
  · rename_i u hu
    have hprev := Version.prev?_eq_some_iff.1 hu
    have hur : u.InRange := Version.inRange_iff.2 (by omega)
    rw [Version.toComponent_lt_iff hur hv, Version.lt_iff]
    omega
  · rename_i hnone
    have hzero := Version.prev?_eq_none_iff.1 hnone
    simp only [belowVersions, Version.marker_lt_toComponent, true_iff]
    omega

theorem toComponent_lt_above_iff (h : p.WellFormed) {v : Version} (hv : v.InRange) :
    v.toComponent < p.above ↔ v ≤ p.upper := by
  have hup := Version.inRange_iff.1 h.upper_inRange
  have hvr := Version.inRange_iff.1 hv
  rw [Version.le_iff, above]
  split
  · rename_i w hw
    obtain ⟨hnext, hwr⟩ := Version.next?_eq_some_iff.1 hw
    rw [Version.toComponent_lt_iff hv hwr, Version.lt_iff]
    omega
  · rename_i hnone
    have hmax := Version.next?_eq_none_iff.1 hnone
    simp only [aboveVersions, Version.toComponent_lt_last_append hv, true_iff]
    omega

theorem between_toComponent_iff (h : p.WellFormed) {v : Version} (hv : v.InRange) :
    (p.below < v.toComponent ∧ v.toComponent < p.above) ↔ p.covers v = true := by
  rw [h.below_lt_toComponent_iff hv, h.toComponent_lt_above_iff hv, covers_iff]

theorem below_lt_above (h : p.WellFormed) : p.below < p.above := by
  have hcov : p.covers p.lower = true :=
    covers_iff.2 ⟨Version.le_iff.2 (Nat.le_refl _), h.lower_le_upper⟩
  obtain ⟨hlow, hhigh⟩ := (h.between_toComponent_iff h.lower_inRange).2 hcov
  exact Bytes.lt_trans hlow hhigh

theorem mem_excluded_components_iff (h : p.WellFormed) {v : Version} (hv : v.InRange) :
    v.toComponent ∈ p.excluded.map Version.toComponent ↔ v ∈ p.excluded := by
  rw [List.mem_map]
  constructor
  · rintro ⟨u, hu, huv⟩
    rwa [← (Version.toComponent_inj (h.inRange_of_covers (h.excluded_covered u hu)) hv).1 huv]
  · exact fun hmem => ⟨v, hmem, rfl⟩

theorem toComponent_not_mem_strays (h : p.WellFormed) {v : Version} (hv : v.InRange) :
    v.toComponent ∉ p.strays := fun hmem =>
  Version.toComponent_ne_of_isComponent_eq_false (h.strays_foreign _ hmem) hv rfl

theorem admits_toComponent_iff (h : p.WellFormed) {v : Version} (hv : v.InRange) :
    p.Admits v.toComponent ↔ p.covers v = true ∧ v ∉ p.excluded := by
  rw [Admits, h.between_toComponent_iff hv, h.mem_excluded_components_iff hv]
  simp [h.toComponent_not_mem_strays hv]

theorem seen_nodup (h : p.WellFormed) :
    (p.excluded.map Version.toComponent ++ p.strays).Nodup := by
  refine List.nodup_append.2 ⟨?_, ?_, ?_⟩
  · refine List.pairwise_map.2 (h.excluded_sorted.imp_of_mem ?_)
    intro a b ha hb hab
    have har := h.inRange_of_covers (h.excluded_covered a ha)
    have hbr := h.inRange_of_covers (h.excluded_covered b hb)
    exact Bytes.ne_of_lt ((Version.toComponent_lt_iff har hbr).2 hab)
  · exact h.strays_sorted.imp Bytes.ne_of_lt
  · intro a ha b hb hab
    obtain ⟨v, hv, rfl⟩ := List.mem_map.1 ha
    have hvr := h.inRange_of_covers (h.excluded_covered v hv)
    exact h.toComponent_not_mem_strays hvr (hab ▸ hb)

end WellFormed

theorem mem_seen {p : Partition} {c : Component} :
    c ∈ p.seen ↔ c ∈ p.excluded.map Version.toComponent ∨ c ∈ p.strays := by
  rw [seen, List.mem_mergeSort, List.mem_append]

theorem filterElements_eq (p : Partition) :
    p.filterElements =
      .any :: .component p.below :: ((p.seen ++ [p.above]).map .component ++ [.any]) := by
  simp [filterElements]

theorem parts_of_excludeFilter {p : Partition} {f : ExcludeFilter} (h : p.excludeFilter = .ok f) :
    f.components = p.below :: (p.seen ++ [p.above]) ∧
      f.ranges = true :: (List.replicate (p.seen.length + 1) false ++ [true]) := by
  obtain ⟨hcomponents, hranges⟩ := ExcludeFilter.parts_of_ofElements h
  rw [filterElements_eq] at hcomponents hranges
  simp only [ExcludeFilter.componentsOf, ExcludeFilter.componentsOf_components] at hcomponents
  simp only [ExcludeFilter.rangesOf, ExcludeFilter.rangesOf_components, List.length_append,
    List.length_singleton] at hranges
  exact ⟨hcomponents, hranges⟩

theorem length_components {p : Partition} {f : ExcludeFilter} (h : p.excludeFilter = .ok f) :
    f.components.length = p.excluded.length + p.strays.length + 2 := by
  rw [(parts_of_excludeFilter h).1, seen]
  simp

namespace WellFormed

variable {p : Partition}

theorem seen_sorted (h : p.WellFormed) : p.seen.Pairwise (· < ·) := by
  have hle : p.seen.Pairwise (· ≤ ·) := ExcludeFilter.pairwise_arrange _
  have hne : p.seen.Nodup := (List.mergeSort_perm _ _).nodup_iff.2 h.seen_nodup
  refine (List.pairwise_and_iff.2 ⟨hle, hne⟩).imp ?_
  rintro a b ⟨hab, hab'⟩
  exact Std.lt_of_le_of_ne hab hab'

theorem seen_between (h : p.WellFormed) {c : Component} (hc : c ∈ p.seen) :
    p.below < c ∧ c < p.above := by
  rcases mem_seen.1 hc with hc | hc
  · obtain ⟨v, hv, rfl⟩ := List.mem_map.1 hc
    have hcov := h.excluded_covered v hv
    exact (h.between_toComponent_iff (h.inRange_of_covers hcov)).2 hcov
  · exact h.strays_between c hc

theorem enclosed_sorted (h : p.WellFormed) :
    (p.below :: (p.seen ++ [p.above])).Pairwise (· < ·) := by
  refine List.pairwise_cons.2 ⟨?_, List.pairwise_append.2 ⟨h.seen_sorted, by simp, ?_⟩⟩
  · intro c hc
    rcases List.mem_append.1 hc with hc | hc
    · exact (h.seen_between hc).1
    · rw [List.mem_singleton.1 hc]
      exact h.below_lt_above
  · intro c hc d hd
    rw [List.mem_singleton.1 hd]
    exact (h.seen_between hc).2

/-- The filter can be built, and says of every component whether the partition admits it. -/
theorem excludeFilter_eq_ok (h : p.WellFormed) :
    ∃ f, p.excludeFilter = .ok f ∧ ∀ c, f.excludes c = false ↔ p.Admits c := by
  have hfault : ExcludeFilter.fault? 0 none false p.filterElements = none := by
    rw [filterElements_eq]
    exact ExcludeFilter.fault?_components 2 p.below _ false h.enclosed_sorted (by simp)
  obtain ⟨f, hf⟩ := ExcludeFilter.exists_ofElements_iff.2 hfault
  refine ⟨f, hf, fun c => ?_⟩
  obtain ⟨hcs, hrs⟩ := parts_of_excludeFilter hf
  have hinner := ExcludeFilter.hits_closed (x := c) (List.pairwise_cons.1 h.enclosed_sorted).2
  rw [ExcludeFilter.excludes, hcs, hrs, ExcludeFilter.hits, Admits]
  cases ho : Bytes.order c p.below with
  | lt => simp [Bytes.lt_asymm (Bytes.order_eq_lt_iff.1 ho)]
  | eq => simp [Bytes.order_eq_eq_iff.1 ho, Bytes.lt_irrefl]
  | gt =>
    have hbelow := Bytes.order_eq_gt_iff.1 ho
    simp only [← Bool.not_eq_true, hinner, mem_seen, not_or, Decidable.not_not, hbelow, true_and]
    exact And.comm

theorem interest_eq_ok (h : p.WellFormed) (basename : Name) (config : Config) :
    ∃ f, p.excludeFilter = .ok f ∧ (∀ c, f.excludes c = false ↔ p.Admits c) ∧
      p.interest basename config =
        .ok { name := basename, additional := config.additional, exclude := some f } := by
  obtain ⟨f, hf, hadmits⟩ := h.excludeFilter_eq_ok
  refine ⟨f, hf, hadmits, ?_⟩
  rw [interest, hf]
  rfl

theorem insert_version (h : p.WellFormed) {v : Version} (hv : p.covers v = true) :
    (p.insert v).WellFormed where
  lower_le_upper := h.lower_le_upper
  upper_inRange := h.upper_inRange
  excluded_sorted := SortedList.pairwise_insert h.excluded_sorted
  excluded_covered u hu := by
    rcases SortedList.mem_insert.1 hu with rfl | hu
    · exact hv
    · exact h.excluded_covered u hu
  strays_sorted := h.strays_sorted
  strays_between := h.strays_between
  strays_foreign := h.strays_foreign

theorem insert_stray (h : p.WellFormed) {c : Component} (hc : p.Admits c)
    (hforeign : Version.isComponent c = false) : (p.insertStray c).WellFormed where
  lower_le_upper := h.lower_le_upper
  upper_inRange := h.upper_inRange
  excluded_sorted := h.excluded_sorted
  excluded_covered := h.excluded_covered
  strays_sorted := SortedList.pairwise_insert h.strays_sorted
  strays_between d hd := by
    rcases SortedList.mem_insert.1 hd with rfl | hd
    · exact hc.1
    · exact h.strays_between d hd
  strays_foreign d hd := by
    rcases SortedList.mem_insert.1 hd with rfl | hd
    · exact hforeign
    · exact h.strays_foreign d hd

end WellFormed

end Partition

end NamedContent
