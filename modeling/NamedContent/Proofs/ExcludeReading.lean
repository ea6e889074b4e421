import NamedContent.Proofs.ExcludeElements

/-!
What a filter excludes, read off its written order: the components it lists, and what lies in the
gap of a marker. The gap reaches from the component in front of the marker to the one after it,
and is open to an end where there is none.

A filter may also be asked through a search of its components, which answers where a component
stands or between which two it would have to stand. Whatever such a search answers, the flag at
that place is the filter's own answer, and there always is such a flag.
-/

namespace NamedContent.ExcludeFilter

def Marked (es : List ExcludeElement) (c : Component) : Prop :=
  ∃ before after, es = before ++ .any :: after ∧
    (∀ p ∈ (componentsOf before).getLast?, p < c) ∧ ∀ p ∈ (componentsOf after).head?, c < p

/-- What a search for `c` in increasing components may answer: a place where it stands, or else
the place that parts what is below it from what is above. -/
inductive Finds (cs : List Component) (c : Component) : Except Nat Nat → Prop
  | here {i : Nat} (h : cs[i]? = some c) : Finds cs c (.ok i)
  | slot {i : Nat} (hi : i ≤ cs.length) (hbelow : ∀ p ∈ cs.take i, p < c)
      (habove : ∀ p ∈ cs.drop i, c < p) : Finds cs c (.error i)

def excludedAt? (f : ExcludeFilter) : Except Nat Nat → Option Bool
  | .ok _ => some true
  | .error slot => f.ranges[slot]?

section Marked

variable {es : List ExcludeElement} {p c : Component}

theorem not_marked_nil : ¬ Marked [] c := by
  rintro ⟨before, after, hsplit, -⟩
  cases before <;> cases hsplit

theorem marked_any_cons :
    Marked (.any :: es) c ↔ (∀ q ∈ (componentsOf es).head?, c < q) ∨ Marked es c := by
  constructor
  · rintro ⟨before, after, hsplit, hbelow, habove⟩
    cases before with
    | nil =>
      obtain ⟨-, rfl⟩ := List.cons.inj hsplit
      exact .inl habove
    | cons e before =>
      obtain ⟨rfl, rfl⟩ := List.cons.inj hsplit
      exact .inr ⟨before, after, rfl, hbelow, habove⟩
  · rintro (habove | ⟨before, after, rfl, hbelow, habove⟩)
    · exact ⟨[], es, rfl, by simp [componentsOf], habove⟩
    · exact ⟨.any :: before, after, rfl, hbelow, habove⟩

theorem marked_component_cons_iff (hpc : p < c) :
    Marked (.component p :: es) c ↔ Marked es c := by
  constructor
  · rintro ⟨before, after, hsplit, hbelow, habove⟩
    cases before with
    | nil => cases (List.cons.inj hsplit).1
    | cons e before =>
      obtain ⟨rfl, rfl⟩ := List.cons.inj hsplit
      refine ⟨before, after, rfl, fun q hq => hbelow q ?_, habove⟩
      simp [componentsOf, List.getLast?_cons, Option.mem_def.1 hq]
  · rintro ⟨before, after, rfl, hbelow, habove⟩
    refine ⟨.component p :: before, after, rfl, ?_, habove⟩
    cases hlast : (componentsOf before).getLast? with
    | none => simpa [componentsOf, List.getLast?_cons, hlast] using hpc
    | some q => simpa [componentsOf, List.getLast?_cons, hlast] using hbelow q hlast

theorem not_marked_component_cons (h : ∀ q ∈ p :: componentsOf es, c < q) :
    ¬ Marked (.component p :: es) c := by
  rintro ⟨before, after, hsplit, hbelow, -⟩
  cases before with
  | nil => cases (List.cons.inj hsplit).1
  | cons e before =>
    obtain ⟨rfl, rfl⟩ := List.cons.inj hsplit
    obtain ⟨q, hq⟩ : ∃ q, (p :: componentsOf before).getLast? = some q := by
      simp [List.getLast?_cons]
    have hmem : q ∈ p :: componentsOf (before ++ .any :: after) := by
      have hq' := List.mem_of_getLast? hq
      rw [componentsOf_append]
      exact List.mem_append_left _ hq'
    exact Bytes.lt_asymm (h q hmem) (hbelow q hq)

end Marked

section Hits

variable {c : Component} {cs : List Component} {rs : List Bool}

theorem Gaps.hits_iff (h : Gaps cs rs) (hcs : cs.Pairwise (· < ·)) :
    hits c cs rs = true ↔
      ExcludeElement.component c ∈ interleave cs rs ∨ Marked (interleave cs rs) c := by
  induction h with
  | nil r => cases r <;> simp [hits, interleave, marked_any_cons, componentsOf, not_marked_nil]
  | @cons p r cs rs h ih =>
    obtain ⟨hp, hcs⟩ := List.pairwise_cons.1 hcs
    have hrest := h.componentsOf_eq
    cases ho : Bytes.order c p with
    | lt =>
      have hcp := Bytes.order_eq_lt_iff.1 ho
      have hall : ∀ q ∈ p :: componentsOf (interleave cs rs), c < q := by
        rw [hrest]
        intro q hq
        rcases List.mem_cons.1 hq with rfl | hq
        · exact hcp
        · exact Bytes.lt_trans hcp (hp q hq)
      have hne : ExcludeElement.component c ∉ .component p :: interleave cs rs := by
        intro hmem
        have hc := mem_componentsOf.2 hmem
        exact Bytes.lt_irrefl c (hall c hc)
      have hnot := not_marked_component_cons hall
      cases r with
      | false => simpa [hits, ho, interleave] using And.intro (by simpa using hne) hnot
      | true => simp [hits, ho, interleave, marked_any_cons, componentsOf, hcp]
    | eq =>
      obtain rfl := Bytes.order_eq_eq_iff.1 ho
      simp [hits, ho, interleave]
    | gt =>
      have hpc := Bytes.order_eq_gt_iff.1 ho
      have hne : c ≠ p := (Bytes.ne_of_lt hpc).symm
      have hfirst : ¬ c < p := Bytes.lt_asymm hpc
      cases r <;>
        simp [hits, ho, ih hcs, interleave, marked_any_cons, componentsOf, hne, hfirst,
          marked_component_cons_iff hpc]

theorem exists_finds (hcs : cs.Pairwise (· < ·)) (c : Component) :
    ∃ answer, Finds cs c answer := by
  induction cs with
  | nil => exact ⟨.error 0, .slot (Nat.le_refl 0) (by simp) (by simp)⟩
  | cons p cs ih =>
    obtain ⟨hp, hcs⟩ := List.pairwise_cons.1 hcs
    rcases Bytes.lt_or_eq_or_lt c p with hcp | rfl | hpc
    · refine ⟨.error 0, .slot (Nat.zero_le _) (by simp) fun q hq => ?_⟩
      rcases List.mem_cons.1 hq with rfl | hq
      · exact hcp
      · exact Bytes.lt_trans hcp (hp q hq)
    · exact ⟨.ok 0, .here rfl⟩
    · obtain ⟨answer, hfinds⟩ := ih hcs
      cases hfinds with
      | @here i h => exact ⟨.ok (i + 1), .here h⟩
      | @slot i hi hbelow habove =>
        refine ⟨.error (i + 1), .slot (Nat.succ_le_succ hi) (fun q hq => ?_) habove⟩
        rcases List.mem_cons.1 hq with rfl | hq
        · exact hpc
        · exact hbelow q hq

theorem Gaps.hits_of_getElem? (h : Gaps cs rs) (hcs : cs.Pairwise (· < ·)) {i : Nat}
    (hc : cs[i]? = some c) : hits c cs rs = true :=
  (h.hits_iff hcs).2 <| .inl <| mem_componentsOf.1 <| by
    rw [h.componentsOf_eq]
    exact List.mem_of_getElem? hc

theorem Gaps.getElem?_of_slot (h : Gaps cs rs) {i : Nat} (hi : i ≤ cs.length)
    (hbelow : ∀ p ∈ cs.take i, p < c) (habove : ∀ p ∈ cs.drop i, c < p) :
    rs[i]? = some (hits c cs rs) := by
  induction h generalizing i with
  | nil r =>
    obtain rfl : i = 0 := Nat.le_zero.1 hi
    rfl
  | @cons p r cs rs h ih =>
    cases i with
    | zero =>
      have hcp : c < p := habove p (by simp)
      simp [hits, Bytes.order_eq_lt_iff.2 hcp]
    | succ i =>
      have hpc : p < c := hbelow p (by simp)
      have hrest : rs[i]? = some (hits c cs rs) := by
        refine ih (Nat.le_of_succ_le_succ hi) (fun q hq => ?_) habove
        exact hbelow q (List.mem_cons_of_mem p hq)
      simpa [hits, Bytes.order_eq_gt_iff.2 hpc] using hrest

end Hits

theorem mem_or_marked_iff (f : ExcludeFilter) (c : Component) :
    f.excludes c = true ↔ ExcludeElement.component c ∈ f.elements ∨ Marked f.elements c :=
  f.gaps.hits_iff f.sorted

theorem excludedAt?_of_finds (f : ExcludeFilter) {c : Component} {answer : Except Nat Nat}
    (h : Finds f.components c answer) : f.excludedAt? answer = some (f.excludes c) := by
  cases h with
  | here h => exact congrArg some (f.gaps.hits_of_getElem? f.sorted h).symm
  | slot hi hbelow habove => exact f.gaps.getElem?_of_slot hi hbelow habove

/-- A filter excludes the components in its written order and what lies in the gap of a marker
there. It says so whichever way its components are searched. -/
theorem excludes_as_written (f : ExcludeFilter) (c : Component) :
    (f.excludes c = true ↔ ExcludeElement.component c ∈ f.elements ∨ Marked f.elements c) ∧
      (∃ answer, Finds f.components c answer) ∧
      ∀ answer, Finds f.components c answer → f.excludedAt? answer = some (f.excludes c) :=
  ⟨f.mem_or_marked_iff c, exists_finds f.sorted c, fun _ h => f.excludedAt?_of_finds h⟩

def sampleFilter : ExcludeFilter :=
  ⟨[[0x64], [0x6d], [0x74]], [true, false, true, false], by decide, by decide⟩

theorem excludes_as_written_sample :
    sampleFilter.excludes [0x70] = true ∧ Finds sampleFilter.components [0x70] (.error 2) ∧
      sampleFilter.excludedAt? (.error 2) = some (sampleFilter.excludes [0x70]) := by
  have hfinds : Finds sampleFilter.components [0x70] (.error 2) :=
    .slot (by decide) (by decide) (by decide)
  have hmarked : Marked sampleFilter.elements [0x70] :=
    ⟨[.any, .component [0x64], .component [0x6d]], [.component [0x74]], rfl, by decide,
      by decide⟩
  obtain ⟨hiff, -, hsearch⟩ := excludes_as_written sampleFilter [0x70]
  exact ⟨hiff.2 (.inr hmarked), hfinds, hsearch _ hfinds⟩

end NamedContent.ExcludeFilter
