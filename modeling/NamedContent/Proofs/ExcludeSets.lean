import NamedContent.Proofs.ExcludeReading

/-!
Filters of components alone are finite sets of byte strings. They can be built from a list just
if it repeats nothing, its order does not matter, they exclude what is in the list, and filters
that exclude the same are the same.
-/

namespace NamedContent.ExcludeFilter

variable {cs ds : List Component} {f g : ExcludeFilter}

theorem arrange_perm (cs : List Component) : (arrange cs).Perm cs :=
  List.mergeSort_perm cs _

theorem arrange_eq_of_perm (hperm : ds.Perm cs) (hds : ds.Pairwise (· ≤ ·)) :
    arrange cs = ds := by
  refine List.Perm.eq_of_pairwise ?_ (pairwise_arrange cs) hds ((arrange_perm cs).trans hperm.symm)
  intro a b _ _ hab hba
  exact Std.le_antisymm hab hba

theorem repeated?_eq_none_iff {i : Nat} (hle : cs.Pairwise (· ≤ ·)) :
    repeated? i cs = none ↔ cs.Nodup := by
  constructor
  · exact fun h => (pairwise_lt_of_repeated?_eq_none hle h).imp Bytes.ne_of_lt
  · intro h
    fun_induction repeated? i cs with
    | case1 => rfl
    | case2 => rfl
    | case3 => simp at h
    | case4 i c d rest _ ih => exact ih hle.tail (List.nodup_cons.1 h).2

theorem fault?_map_component (i : Nat) (p : Component) (afterAny : Bool)
    (hle : (p :: cs).Pairwise (· ≤ ·)) :
    fault? (i + 1) (some p) afterAny (cs.map .component) =
      (repeated? i (p :: cs)).map .duplicate := by
  induction cs generalizing i p afterAny with
  | nil => rfl
  | cons c cs ih =>
    obtain ⟨hp, hrest⟩ := List.pairwise_cons.1 hle
    have hge : ¬ c < p := List.not_lt.2 (hp c List.mem_cons_self)
    rw [List.map_cons, fault?, repeated?, if_neg hge, ih (i + 1) c false hrest]
    by_cases hcp : c = p
    · simp [hcp]
    · simp [hcp, Ne.symm hcp]

theorem fault?_arranged (hle : cs.Pairwise (· ≤ ·)) :
    fault? 0 none false (cs.map .component) = (repeated? 0 cs).map .duplicate := by
  cases cs with
  | nil => rfl
  | cons c cs => exact fault?_map_component 0 c false hle

theorem rangesOf_map_component (cs : List Component) :
    rangesOf false (cs.map .component) = List.replicate (cs.length + 1) false := by
  induction cs with
  | nil => rfl
  | cons c cs ih =>
    rw [List.map_cons, rangesOf, ih]
    rfl

theorem ofComponents_eq_ofElements (cs : List Component) :
    ofComponents cs = ofElements ((arrange cs).map .component) := by
  have hfault := fault?_arranged (pairwise_arrange cs)
  unfold ofComponents
  split
  · rename_i i hi
    rw [hi] at hfault
    exact (ofElements_eq_error_iff.2 hfault).symm
  · rename_i hnone
    rw [hnone] at hfault
    obtain ⟨g, hok⟩ := exists_ofElements_iff.2 hfault
    obtain ⟨hcomponents, hranges⟩ := parts_of_ofElements hok
    rw [componentsOf_map_component] at hcomponents
    rw [rangesOf_map_component] at hranges
    rw [hok]
    exact congrArg Except.ok (eq_of_parts hcomponents.symm hranges.symm)

theorem elements_of_ofComponents (h : ofComponents cs = .ok f) :
    f.elements = (arrange cs).map .component := by
  rw [ofComponents_eq_ofElements] at h
  exact elements_of_ofElements h

theorem exists_ofComponents_iff : (∃ f, ofComponents cs = .ok f) ↔ cs.Nodup := by
  have hle := pairwise_arrange cs
  rw [ofComponents_eq_ofElements, exists_ofElements_iff, fault?_arranged hle,
    Option.map_eq_none_iff, repeated?_eq_none_iff hle, (arrange_perm cs).nodup_iff]

theorem excludes_of_ofComponents (h : ofComponents cs = .ok f) (c : Component) :
    f.excludes c = true ↔ c ∈ cs := by
  have helements := elements_of_ofComponents h
  have hunmarked : ¬ Marked f.elements c := by
    rintro ⟨before, after, hsplit, -⟩
    have hany : ExcludeElement.any ∈ f.elements := by simp [hsplit]
    simp [helements] at hany
  rw [mem_or_marked_iff, or_iff_left hunmarked, ← mem_componentsOf, helements,
    componentsOf_map_component, (arrange_perm cs).mem_iff]

theorem eq_of_excludes (hf : ofComponents cs = .ok f) (hg : ofComponents ds = .ok g)
    (h : ∀ c, f.excludes c = g.excludes c) : f = g := by
  have hmem : ∀ c, c ∈ cs ↔ c ∈ ds := fun c => by
    rw [← excludes_of_ofComponents hf, h, excludes_of_ofComponents hg]
  have hperm : cs.Perm ds :=
    (List.perm_ext_iff_of_nodup (exists_ofComponents_iff.1 ⟨f, hf⟩)
      (exists_ofComponents_iff.1 ⟨g, hg⟩)).2 hmem
  rw [ofComponents_eq_ofElements] at hf hg
  rw [arrange_eq_of_perm ((arrange_perm ds).trans hperm.symm) (pairwise_arrange ds), hg] at hf
  exact (Except.ok.inj hf).symm

/-- The filters of components are the finite sets of byte strings. -/
theorem ofComponents_as_set (cs : List Component) :
    ((∃ f, ofComponents cs = .ok f) ↔ cs.Nodup) ∧
      (∀ ds : List Component, ds.Perm cs → ofComponents ds = ofComponents cs) ∧
      (∀ ds : List Component, ds.Perm cs → ds.Pairwise (· ≤ ·) →
        ofComponents cs = ofElements (ds.map .component)) ∧
      (∀ f, ofComponents cs = .ok f → ∀ c, f.excludes c = true ↔ c ∈ cs) ∧
      ∀ f, ofComponents cs = .ok f → ∀ ds g, ofComponents ds = .ok g →
        (f = g ↔ ∀ c, f.excludes c = g.excludes c) := by
  refine ⟨exists_ofComponents_iff, fun ds hperm => ?_, fun ds hperm hds => ?_,
    fun _ => excludes_of_ofComponents, fun f hf ds g hg => ?_⟩
  · have harrange : arrange cs = arrange ds :=
      arrange_eq_of_perm ((arrange_perm ds).trans hperm) (pairwise_arrange ds)
    rw [ofComponents_eq_ofElements, ofComponents_eq_ofElements, harrange]
  · rw [ofComponents_eq_ofElements, arrange_eq_of_perm hperm hds]
  · constructor
    · rintro rfl c
      rfl
    · exact eq_of_excludes hf hg

theorem ofComponents_as_set_sample :
    ∃ f, ofComponents [[1, 2], [], [1]] = .ok f ∧ ofComponents [[], [1], [1, 2]] = .ok f ∧
      ofElements [.component [], .component [1], .component [1, 2]] = .ok f ∧
      f.excludes [1] = true ∧ f.excludes [2] = false := by
  obtain ⟨haccepts, hperm, hsorted, hmember, -⟩ := ofComponents_as_set [[1, 2], [], [1]]
  obtain ⟨f, hf⟩ := haccepts.2 (by decide)
  have hds : ([[], [1], [1, 2]] : List Component).Perm [[1, 2], [], [1]] := by decide
  have hlist := hsorted _ hds (by decide)
  refine ⟨f, hf, (hperm _ hds).trans hf, hlist.symm.trans hf, (hmember f hf _).2 (by decide), ?_⟩
  rw [← Bool.not_eq_true, hmember f hf]
  decide

end NamedContent.ExcludeFilter
