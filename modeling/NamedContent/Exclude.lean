import NamedContent.Name.Uri

/-!
Exclude filters: strictly increasing components with a flag for each gap before, between and
after them. A set flag excludes everything strictly inside its gap. `ofElements` reads a filter
from its written order and refuses at the first element out of place.
-/

namespace NamedContent

inductive ExcludeElement where
  | component (c : Component)
  /-- Everything between the neighbouring components. -/
  | any
  deriving DecidableEq

inductive ExcludeFault where
  | unsorted (index : Nat)
  | duplicate (index : Nat)
  | adjacentRanges (index : Nat)
  deriving DecidableEq

def ExcludeFault.message : ExcludeFault → String
  | .unsorted i => "Exclude components out of order at element " ++ toString i
  | .duplicate i => "Duplicate exclude component at element " ++ toString i
  | .adjacentRanges i => "Adjacent range markers at element " ++ toString i

structure ExcludeFilter where
  components : List Component
  /-- The flag at `i` belongs to the gap before component `i`; the last one to the open end. -/
  ranges : List Bool
  sorted : components.Pairwise (· < ·)
  length_ranges : ranges.length = components.length + 1
  deriving DecidableEq

namespace ExcludeFilter

/-- The first element out of place, for elements from position `i` on that follow the component
`last` and, if `afterAny`, a range marker. -/
def fault? : (i : Nat) → (last : Option Component) → (afterAny : Bool) →
    List ExcludeElement → Option ExcludeFault
  | _, _, _, [] => none
  | i, last, afterAny, .any :: rest =>
    if afterAny then some (.adjacentRanges i) else fault? (i + 1) last true rest
  | i, none, _, .component c :: rest => fault? (i + 1) (some c) false rest
  | i, some p, _, .component c :: rest =>
    if c = p then some (.duplicate i)
    else if c < p then some (.unsorted i)
    else fault? (i + 1) (some c) false rest

def componentsOf : List ExcludeElement → List Component
  | [] => []
  | .any :: rest => componentsOf rest
  | .component c :: rest => c :: componentsOf rest

/-- One flag for each gap; `pending` is set if a marker stood in the gap that is open. -/
def rangesOf (pending : Bool) : List ExcludeElement → List Bool
  | [] => [pending]
  | .any :: rest => rangesOf true rest
  | .component _ :: rest => pending :: rangesOf false rest

theorem length_rangesOf (pending : Bool) (es : List ExcludeElement) :
    (rangesOf pending es).length = (componentsOf es).length + 1 := by
  induction es generalizing pending with
  | nil => rfl
  | cons e rest ih => cases e <;> simp [rangesOf, componentsOf, ih]

theorem sorted_of_fault?_eq_none {i : Nat} {last : Option Component} {afterAny : Bool}
    {es : List ExcludeElement} (h : fault? i last afterAny es = none) :
    (componentsOf es).Pairwise (· < ·) ∧ ∀ p ∈ last, ∀ c ∈ componentsOf es, p < c := by
  fun_induction fault? i last afterAny es with
  | case1 => simp [componentsOf]
  | case2 => simp at h
  | case3 _ _ _ _ _ ih => simpa [componentsOf] using ih h
  | case4 _ _ c rest ih =>
    obtain ⟨hsorted, habove⟩ := ih h
    exact ⟨List.pairwise_cons.2 ⟨habove c rfl, hsorted⟩, by simp⟩
  | case5 => simp at h
  | case6 => simp at h
  | case7 _ _ p c rest hne hlt ih =>
    obtain ⟨hsorted, habove⟩ := ih h
    have hpc : p < c := Std.lt_of_le_of_ne (List.not_lt.1 hlt) (Ne.symm hne)
    have hrest : ∀ d ∈ componentsOf rest, c < d := habove c rfl
    refine ⟨List.pairwise_cons.2 ⟨hrest, hsorted⟩, ?_⟩
    intro q hq d hd
    obtain rfl : p = q := Option.some.inj hq
    rcases List.mem_cons.1 hd with rfl | hd
    · exact hpc
    · exact List.lt_trans hpc (hrest d hd)

def ofElements (es : List ExcludeElement) : Except ExcludeFault ExcludeFilter :=
  match h : fault? 0 none false es with
  | some fault => .error fault
  | none => .ok ⟨componentsOf es, rangesOf false es, (sorted_of_fault?_eq_none h).1,
      length_rangesOf false es⟩

def arrange (cs : List Component) : List Component := cs.mergeSort fun a b => decide (a ≤ b)

theorem pairwise_arrange (cs : List Component) : (arrange cs).Pairwise (· ≤ ·) := by
  have htrans : ∀ a b c : Component,
      decide (a ≤ b) = true → decide (b ≤ c) = true → decide (a ≤ c) = true := by
    intro a b c hab hbc
    simpa using List.le_trans (of_decide_eq_true hab) (of_decide_eq_true hbc)
  have htotal : ∀ a b : Component, (decide (a ≤ b) || decide (b ≤ a)) = true := by
    intro a b
    simpa using List.le_total a b
  exact (List.pairwise_mergeSort htrans htotal cs).imp of_decide_eq_true

def repeated? (i : Nat) : List Component → Option Nat
  | [] => none
  | [_] => none
  | c :: d :: rest => if c = d then some (i + 1) else repeated? (i + 1) (d :: rest)

theorem pairwise_lt_of_repeated?_eq_none {i : Nat} {cs : List Component}
    (hle : cs.Pairwise (· ≤ ·)) (h : repeated? i cs = none) : cs.Pairwise (· < ·) := by
  fun_induction repeated? i cs with
  | case1 => exact List.Pairwise.nil
  | case2 _ c => exact List.pairwise_singleton _ c
  | case3 => simp at h
  | case4 i c d rest hne ih =>
    obtain ⟨hc, hrest⟩ := List.pairwise_cons.1 hle
    have hcd : c < d := Std.lt_of_le_of_ne (hc d List.mem_cons_self) hne
    have hlt := ih hrest h
    refine List.pairwise_cons.2 ⟨?_, hlt⟩
    intro e he
    rcases List.mem_cons.1 he with rfl | he
    · exact hcd
    · exact List.lt_trans hcd ((List.pairwise_cons.1 hlt).1 e he)

/-- The filter of exactly these components, given in any order: no gap between them is excluded. -/
def ofComponents (cs : List Component) : Except ExcludeFault ExcludeFilter :=
  match h : repeated? 0 (arrange cs) with
  | some i => .error (.duplicate i)
  | none => .ok ⟨arrange cs, List.replicate ((arrange cs).length + 1) false,
      pairwise_lt_of_repeated?_eq_none (pairwise_arrange cs) h, List.length_replicate⟩

/-- The filter of a set of omissions. No omissions give no filter, which differs on the wire
from an empty one. -/
def ofOmissions (cs : List Component) : Except ExcludeFault (Option ExcludeFilter) :=
  if cs.isEmpty then .ok none else some <$> ofComponents cs

/-- Walks up to the place of `c`: a component equal to it, or the gap that holds it. -/
def hits (c : Component) : List Component → List Bool → Bool
  | p :: ps, r :: rs =>
    match Bytes.order c p with
    | .lt => r
    | .eq => true
    | .gt => hits c ps rs
  | [], r :: _ => r
  | _, [] => false

def excludes (f : ExcludeFilter) (c : Component) : Bool := hits c f.components f.ranges

def interleave : List Component → List Bool → List ExcludeElement
  | c :: cs, r :: rs => (if r then [.any] else []) ++ .component c :: interleave cs rs
  | [], r :: _ => if r then [.any] else []
  | _, [] => []

def elements (f : ExcludeFilter) : List ExcludeElement := interleave f.components f.ranges

def size (f : ExcludeFilter) : Nat := f.components.length + f.ranges.count true

def isEmpty (f : ExcludeFilter) : Bool := f.size == 0

def elementText : ExcludeElement → String
  | .component c => c.toUri
  | .any => "*"

def summary (f : ExcludeFilter) : String := ",".intercalate (f.elements.map elementText)

instance : Ord ExcludeFilter :=
  ⟨fun f g => (compare f.components g.components).then (compare f.ranges g.ranges)⟩

end ExcludeFilter

end NamedContent
