import Mathlib.Data.List.Chain
import NamedContent.Exclude
import NamedContent.Proofs.VersionOrder

/-!
Exclude filters and their written order. A list of elements is in order if its components
increase, across range markers too, and no two markers stand side by side. Just these lists give
a filter, whose written order is the list again; of any other list the first element that does
not fit those in front of it is reported, with its position. Every filter has a written order
that gives it back.
-/

namespace NamedContent.ExcludeFilter

structure InOrder (es : List ExcludeElement) : Prop where
  increasing : (componentsOf es).Pairwise (· < ·)
  separated : es.IsChain fun a b => ¬ (a = .any ∧ b = .any)

inductive OutOfPlace (before : List ExcludeElement) : ExcludeElement → ExcludeFault → Prop
  | adjacentRanges (h : before.getLast? = some .any) :
      OutOfPlace before .any (.adjacentRanges before.length)
  | duplicate {c : Component} (h : (componentsOf before).getLast? = some c) :
      OutOfPlace before (.component c) (.duplicate before.length)
  | unsorted {p c : Component} (h : (componentsOf before).getLast? = some p) (hlt : c < p) :
      OutOfPlace before (.component c) (.unsorted before.length)

/-- The fault is that of an element out of place with none out of place before it. -/
def FirstFault (es : List ExcludeElement) (fault : ExcludeFault) : Prop :=
  ∃ before e after, es = before ++ e :: after ∧ OutOfPlace before e fault ∧
    ∀ b d a other, before = b ++ d :: a → ¬ OutOfPlace b d other

theorem OutOfPlace.unique {before : List ExcludeElement} {e : ExcludeElement}
    {fault other : ExcludeFault} (h : OutOfPlace before e fault)
    (h' : OutOfPlace before e other) : fault = other := by
  cases h with
  | adjacentRanges => cases h'; rfl
  | duplicate hc =>
    cases h' with
    | duplicate => rfl
    | unsorted hp hlt =>
      obtain rfl := Option.some.inj (hc.symm.trans hp)
      exact absurd hlt (Bytes.lt_irrefl _)
  | unsorted hp hlt =>
    cases h' with
    | duplicate hc =>
      obtain rfl := Option.some.inj (hc.symm.trans hp)
      exact absurd hlt (Bytes.lt_irrefl _)
    | unsorted => rfl

theorem componentsOf_append (es rest : List ExcludeElement) :
    componentsOf (es ++ rest) = componentsOf es ++ componentsOf rest := by
  induction es with
  | nil => rfl
  | cons e es ih => cases e <;> simp [componentsOf, ih]

theorem mem_componentsOf {es : List ExcludeElement} {c : Component} :
    c ∈ componentsOf es ↔ ExcludeElement.component c ∈ es := by
  induction es with
  | nil => simp [componentsOf]
  | cons e es ih => cases e <;> simp [componentsOf, ih]

theorem componentsOf_map_component (cs : List Component) :
    componentsOf (cs.map .component) = cs := by
  induction cs with
  | nil => rfl
  | cons c cs ih => rw [List.map_cons, componentsOf, ih]

section Order

variable {before rest : List ExcludeElement} {e : ExcludeElement} {fault : ExcludeFault}

theorem forall_lt_of_getLast? {cs : List Component} (hcs : cs.Pairwise (· < ·)) {c : Component}
    (hlast : ∀ p ∈ cs.getLast?, p < c) : ∀ p ∈ cs, p < c := by
  rcases List.eq_nil_or_concat cs with rfl | ⟨front, last, rfl⟩
  · simp
  · rw [List.concat_eq_append] at hcs hlast ⊢
    have hc : last < c := hlast last (by simp)
    intro p hp
    rcases List.mem_append.1 hp with hp | hp
    · have hpl : p < last := (List.pairwise_append.1 hcs).2.2 p hp last (by simp)
      exact Bytes.lt_trans hpl hc
    · rwa [List.mem_singleton.1 hp]

theorem inOrder_concat_iff :
    InOrder (before ++ [e]) ↔ InOrder before ∧ ∀ fault, ¬ OutOfPlace before e fault := by
  constructor
  · rintro ⟨hincreasing, hseparated⟩
    rw [componentsOf_append, List.pairwise_append] at hincreasing
    obtain ⟨hbefore, -, hbelow⟩ := hincreasing
    rw [List.isChain_append] at hseparated
    refine ⟨⟨hbefore, hseparated.1⟩, fun fault h => ?_⟩
    cases h with
    | adjacentRanges h => exact hseparated.2.2 _ h _ rfl ⟨rfl, rfl⟩
    | duplicate h =>
      exact Bytes.lt_irrefl _ (hbelow _ (List.mem_of_getLast? h) _ List.mem_cons_self)
    | unsorted h hlt =>
      exact Bytes.lt_asymm hlt (hbelow _ (List.mem_of_getLast? h) _ List.mem_cons_self)
  · rintro ⟨⟨hincreasing, hseparated⟩, hfits⟩
    refine ⟨?_, ?_⟩
    · rw [componentsOf_append]
      cases e with
      | any => simpa [componentsOf] using hincreasing
      | component c =>
        have hlast : ∀ p ∈ (componentsOf before).getLast?, p < c := by
          intro p hp
          rcases Bytes.lt_or_eq_or_lt p c with hlt | rfl | hlt
          · exact hlt
          · exact absurd (.duplicate hp) (hfits _)
          · exact absurd (.unsorted hp hlt) (hfits _)
        refine List.pairwise_append.2 ⟨hincreasing, List.pairwise_singleton _ c, ?_⟩
        intro p hp d hd
        rw [List.mem_singleton.1 hd]
        exact forall_lt_of_getLast? hincreasing hlast p hp
    · refine List.isChain_append.2 ⟨hseparated, List.isChain_singleton e, ?_⟩
      rintro a ha b hb ⟨rfl, rfl⟩
      obtain rfl := Option.some.inj hb
      exact hfits _ (.adjacentRanges ha)

theorem InOrder.front (h : InOrder (before ++ rest)) : InOrder before where
  increasing := by
    have := h.increasing
    rw [componentsOf_append] at this
    exact (List.pairwise_append.1 this).1
  separated := (List.isChain_append.1 h.separated).1

def faultAfter? (before rest : List ExcludeElement) : Option ExcludeFault :=
  fault? before.length (componentsOf before).getLast? (decide (before.getLast? = some .any)) rest

theorem faultAfter?_of_outOfPlace (h : OutOfPlace before e fault) :
    faultAfter? before (e :: rest) = some fault := by
  unfold faultAfter?
  cases h with
  | adjacentRanges h => simp [fault?, h]
  | duplicate h => simp [fault?, h]
  | unsorted h hlt => simp [fault?, h, hlt, Bytes.ne_of_lt hlt]

theorem faultAfter?_of_fits (h : ∀ fault, ¬ OutOfPlace before e fault) :
    faultAfter? before (e :: rest) = faultAfter? (before ++ [e]) rest := by
  unfold faultAfter?
  cases e with
  | any =>
    have hlast : before.getLast? ≠ some .any := fun hl => h _ (.adjacentRanges hl)
    simp [fault?, hlast, componentsOf_append, componentsOf]
  | component c =>
    cases hl : (componentsOf before).getLast? with
    | none => simp [fault?, componentsOf_append, componentsOf]
    | some p =>
      have hne : c ≠ p := by
        rintro rfl
        exact h _ (.duplicate hl)
      have hge : ¬ c < p := fun hlt => h _ (.unsorted hl hlt)
      simp [fault?, hne, hge, componentsOf_append, componentsOf]

theorem faultAfter?_eq_none_iff (h : InOrder before) :
    faultAfter? before rest = none ↔ InOrder (before ++ rest) := by
  induction rest generalizing before with
  | nil =>
    rw [List.append_nil]
    exact iff_of_true rfl h
  | cons e rest ih =>
    have hmove : before ++ e :: rest = before ++ [e] ++ rest := by simp
    by_cases hfits : ∀ fault, ¬ OutOfPlace before e fault
    · rw [faultAfter?_of_fits hfits, hmove]
      exact ih (inOrder_concat_iff.2 ⟨h, hfits⟩)
    · obtain ⟨fault, hout⟩ := not_forall_not.1 hfits
      rw [faultAfter?_of_outOfPlace hout, hmove]
      refine iff_of_false (by simp) fun hall => ?_
      exact (inOrder_concat_iff.1 hall.front).2 fault hout

theorem faultAfter?_eq_some_iff :
    faultAfter? before rest = some fault ↔
      ∃ mid e after, rest = mid ++ e :: after ∧ OutOfPlace (before ++ mid) e fault ∧
        ∀ b d a other, mid = b ++ d :: a → ¬ OutOfPlace (before ++ b) d other := by
  induction rest generalizing before with
  | nil => simp [faultAfter?, fault?]
  | cons e rest ih =>
    by_cases hfits : ∀ fault, ¬ OutOfPlace before e fault
    · rw [faultAfter?_of_fits hfits, ih]
      constructor
      · rintro ⟨mid, d, after, rfl, hout, hfirst⟩
        refine ⟨e :: mid, d, after, rfl, by simpa using hout, ?_⟩
        intro b x a other hmid
        cases b with
        | nil =>
          obtain ⟨rfl, -⟩ := List.cons.inj hmid
          simpa using hfits other
        | cons y b =>
          obtain ⟨rfl, rfl⟩ := List.cons.inj hmid
          simpa using hfirst b x a other rfl
      · rintro ⟨mid, d, after, hsplit, hout, hfirst⟩
        cases mid with
        | nil =>
          obtain ⟨rfl, -⟩ := List.cons.inj hsplit
          exact absurd (by simpa using hout) (hfits fault)
        | cons y mid =>
          obtain ⟨rfl, rfl⟩ := List.cons.inj hsplit
          refine ⟨mid, d, after, rfl, by simpa using hout, ?_⟩
          intro b x a other hmid
          simpa using hfirst (e :: b) x a other (by simp [hmid])
    · obtain ⟨found, hout⟩ := not_forall_not.1 hfits
      rw [faultAfter?_of_outOfPlace hout, Option.some.injEq]
      constructor
      · rintro rfl
        exact ⟨[], e, rest, rfl, by simpa using hout, by simp⟩
      · rintro ⟨mid, d, after, hsplit, hout', hfirst⟩
        cases mid with
        | nil =>
          obtain ⟨rfl, -⟩ := List.cons.inj hsplit
          exact hout.unique (by simpa using hout')
        | cons y mid =>
          obtain ⟨rfl, -⟩ := List.cons.inj hsplit
          exact absurd (by simpa using hout) (hfirst [] e mid found rfl)

end Order

section Written

variable {es : List ExcludeElement} {f : ExcludeFilter} {fault : ExcludeFault}

theorem eq_of_parts {g : ExcludeFilter} (hcomponents : f.components = g.components)
    (hranges : f.ranges = g.ranges) : f = g := by
  cases f
  cases g
  cases hcomponents
  cases hranges
  rfl

theorem parts_of_ofElements (h : ofElements es = .ok f) :
    f.components = componentsOf es ∧ f.ranges = rangesOf false es := by
  unfold ofElements at h
  split at h
  · cases h
  · obtain rfl := Except.ok.inj h
    exact ⟨rfl, rfl⟩

theorem ofElements_eq_error_iff :
    ofElements es = .error fault ↔ fault? 0 none false es = some fault := by
  unfold ofElements
  split
  · rename_i found hfound
    simp [hfound]
  · rename_i hnone
    simp [hnone]

theorem exists_ofElements_iff :
    (∃ f, ofElements es = .ok f) ↔ fault? 0 none false es = none := by
  cases h : ofElements es with
  | error fault => simp [ofElements_eq_error_iff.1 h]
  | ok f =>
    refine iff_of_true ⟨f, rfl⟩ ?_
    cases hfault : fault? 0 none false es with
    | none => rfl
    | some fault =>
      rw [ofElements_eq_error_iff.2 hfault] at h
      cases h

theorem ofElements_accepts_iff : (∃ f, ofElements es = .ok f) ↔ InOrder es := by
  have hempty : InOrder [] := ⟨List.Pairwise.nil, List.isChain_nil⟩
  exact exists_ofElements_iff.trans (faultAfter?_eq_none_iff hempty)

theorem ofElements_refuses_iff : ofElements es = .error fault ↔ FirstFault es fault :=
  ofElements_eq_error_iff.trans (@faultAfter?_eq_some_iff [] es fault)

theorem interleave_parts {i : Nat} {last : Option Component} {pending : Bool}
    (h : fault? i last pending es = none) :
    interleave (componentsOf es) (rangesOf pending es) =
      (if pending then [.any] else []) ++ es := by
  fun_induction fault? i last pending es with
  | case1 => simp [componentsOf, rangesOf, interleave]
  | case2 => simp at h
  | case3 _ _ pending rest hpending ih => simp [componentsOf, rangesOf, ih h, hpending]
  | case4 _ _ c rest ih => simp [componentsOf, rangesOf, interleave, ih h]
  | case5 => simp at h
  | case6 => simp at h
  | case7 _ _ p c rest _ _ ih => simp [componentsOf, rangesOf, interleave, ih h]

theorem elements_of_ofElements (h : ofElements es = .ok f) : f.elements = es := by
  obtain ⟨hcomponents, hranges⟩ := parts_of_ofElements h
  rw [elements, hcomponents, hranges]
  exact interleave_parts (exists_ofElements_iff.1 ⟨f, h⟩)

/-- One flag for the gap in front of each component, and one for the open end. -/
inductive Gaps : List Component → List Bool → Prop where
  | nil (r : Bool) : Gaps [] [r]
  | cons (c : Component) (r : Bool) {cs : List Component} {rs : List Bool} (h : Gaps cs rs) :
      Gaps (c :: cs) (r :: rs)

theorem Gaps.of_length {cs : List Component} {rs : List Bool}
    (hlength : rs.length = cs.length + 1) : Gaps cs rs := by
  induction cs generalizing rs with
  | nil =>
    obtain ⟨r, rfl⟩ := List.length_eq_one_iff.1 hlength
    exact .nil r
  | cons c cs ih =>
    obtain ⟨r, rs, rfl⟩ := List.exists_cons_of_length_eq_add_one hlength
    exact .cons c r (ih (Nat.add_right_cancel hlength))

theorem gaps (f : ExcludeFilter) : Gaps f.components f.ranges := .of_length f.length_ranges

namespace Gaps

variable {cs : List Component} {rs : List Bool} (h : Gaps cs rs)

include h

theorem fault?_eq_none (i : Nat) (last : Option Component) (hcs : cs.Pairwise (· < ·))
    (hlast : ∀ p ∈ last, ∀ c ∈ cs, p < c) :
    fault? i last false (interleave cs rs) = none := by
  induction h generalizing i last with
  | nil r => cases r <;> rfl
  | cons c r h ih =>
    obtain ⟨hc, hcs⟩ := List.pairwise_cons.1 hcs
    have hrest := fun j => ih j (some c) hcs fun p hp => Option.some.inj hp ▸ hc
    cases last with
    | none => cases r <;> simp [interleave, fault?, hrest]
    | some p =>
      have hpc : p < c := hlast p rfl c List.mem_cons_self
      cases r <;> simp [interleave, fault?, hrest, (Bytes.ne_of_lt hpc).symm,
        Bytes.lt_asymm hpc]

theorem componentsOf_eq : componentsOf (interleave cs rs) = cs := by
  induction h with
  | nil r => cases r <;> rfl
  | cons c r h ih => cases r <;> simp [interleave, componentsOf, ih]

theorem rangesOf_eq : rangesOf false (interleave cs rs) = rs := by
  induction h with
  | nil r => cases r <;> rfl
  | cons c r h ih => cases r <;> simp [interleave, rangesOf, ih]

theorem length_eq : (interleave cs rs).length = cs.length + rs.count true := by
  induction h with
  | nil r => cases r <;> rfl
  | cons c r h ih => cases r <;> simp [interleave, ih] <;> omega

end Gaps

theorem length_elements (f : ExcludeFilter) : f.elements.length = f.size := f.gaps.length_eq

theorem componentsOf_elements (f : ExcludeFilter) : componentsOf f.elements = f.components :=
  f.gaps.componentsOf_eq

theorem ofElements_elements (f : ExcludeFilter) : ofElements f.elements = .ok f := by
  obtain ⟨g, hok⟩ := exists_ofElements_iff.2 (f.gaps.fault?_eq_none 0 none f.sorted nofun)
  obtain ⟨hcomponents, hranges⟩ := parts_of_ofElements hok
  rw [f.gaps.componentsOf_eq] at hcomponents
  rw [f.gaps.rangesOf_eq] at hranges
  rw [elements, hok, eq_of_parts hcomponents hranges]

end Written

end NamedContent.ExcludeFilter
