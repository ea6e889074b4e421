import NamedContent.Config
import NamedContent.Interest
import NamedContent.SortedList

/-!
Partitions of the version space. A partition is an interval of versions with those excluded in
it. Its exclude filter admits what lies strictly between the components next to its bounds and
has not been seen: a range marker and the component below at one end, the component above and a
range marker at the other, and everything seen in between. Components between the bounds that
are not versions are strays, excluded the same way. A partition that has grown too large is
split at its median, so nothing seen is forgotten.
-/

namespace NamedContent

structure Partition where
  lower : Version
  upper : Version
  /-- Strictly increasing. -/
  excluded : List Version := []
  /-- Strictly increasing. -/
  strays : List Component := []
  deriving DecidableEq

namespace Partition

def belowVersions : Component := [Version.marker]

def aboveVersions : Component := Version.last.toComponent ++ [0]

def full : Partition := { lower := .first, upper := .last }

/-- Partitions from `lower` on, each of the next `more + 1` of the versions given. -/
def coverFrom (more : Nat) (lower : Version) (versions : List Version) : List Partition :=
  match h : versions.drop (more + 1) with
  | [] => [{ lower, upper := .last, excluded := versions }]
  | next :: rest =>
    have : (next :: rest).length < versions.length := by
      rw [← h, List.length_drop]
      have := congrArg List.length h
      simp only [List.length_drop, List.length_cons] at this
      omega
    { lower, upper := next.prev?.getD .last, excluded := versions.take (more + 1) } ::
      coverFrom more next (next :: rest)
termination_by versions.length

/-- Partitions of all versions that hold the exclusions, given in increasing order; each is half
full at most, to have room for more. -/
def cover (exclusions : List Version) (maxExcludes : Nat) : List Partition :=
  coverFrom (maxExcludes / 2 - 1) .first exclusions

def covers (p : Partition) (v : Version) : Bool := decide (p.lower ≤ v) && decide (v ≤ p.upper)

def isExcluded (p : Partition) (v : Version) : Bool := p.excluded.contains v

def insert (p : Partition) (v : Version) : Partition :=
  { p with excluded := SortedList.insert v p.excluded }

def insertStray (p : Partition) (c : Component) : Partition :=
  { p with strays := SortedList.insert c p.strays }

def needsSplit (p : Partition) (maxExcludes : Nat) : Bool :=
  decide (maxExcludes < p.excluded.length + p.strays.length)

/-- The two halves around the median exclusion, which begins the right one; nothing if that
would leave the left one without a version. A stray between the bounds where the halves meet
belongs to both. -/
def split? (p : Partition) : Option (Partition × Partition) := do
  let pivot ← p.excluded[p.excluded.length / 2]?
  let leftUpper ← pivot.prev?
  if leftUpper < p.lower then none
  else
    let left : Partition :=
      { lower := p.lower
        upper := leftUpper
        excluded := p.excluded.filter fun v => decide (v < pivot)
        strays := p.strays.filter fun s => decide (s < pivot.toComponent) }
    let right : Partition :=
      { lower := pivot
        upper := p.upper
        excluded := p.excluded.filter fun v => !decide (v < pivot)
        strays := p.strays.filter fun s => decide (leftUpper.toComponent < s) }
    return (left, right)

def below (p : Partition) : Component :=
  match p.lower.prev? with
  | some v => v.toComponent
  | none => belowVersions

def above (p : Partition) : Component :=
  match p.upper.next? with
  | some v => v.toComponent
  | none => aboveVersions

def seen (p : Partition) : List Component :=
  (p.excluded.map Version.toComponent ++ p.strays).mergeSort fun a b => decide (a ≤ b)

def filterElements (p : Partition) : List ExcludeElement :=
  .any :: .component p.below :: p.seen.map .component ++ [.component p.above, .any]

def excludeFilter (p : Partition) : Except ExcludeFault ExcludeFilter :=
  ExcludeFilter.ofElements p.filterElements

/-- The Interest for any version of the partition not seen yet, under a base name. -/
def interest (p : Partition) (basename : Name) (config : Config) :
    Except ExcludeFault Interest := do
  let filter ← p.excludeFilter
  return { name := basename, additional := config.additional, exclude := some filter }

end Partition

end NamedContent
