/-!
Finite sets as strictly increasing lists.
-/

namespace NamedContent.SortedList

/-- Puts `x` into a strictly increasing list, unless it is there. -/
def insert {α : Type} [LT α] [DecidableEq α] [DecidableLT α] (x : α) : List α → List α
  | [] => [x]
  | y :: ys => if x < y then x :: y :: ys else if x = y then y :: ys else y :: insert x ys

theorem mem_insert {α : Type} [LT α] [DecidableEq α] [DecidableLT α] {x z : α}
    {xs : List α} : z ∈ insert x xs ↔ z = x ∨ z ∈ xs := by
  induction xs with
  | nil => simp [insert]
  | cons y ys ih =>
    simp only [insert]
    split
    · simp
    · split
      · simp_all
      · simp only [List.mem_cons, ih]
        constructor <;> rintro (h | h | h) <;> simp [h]

def ofList {α : Type} [LT α] [DecidableEq α] [DecidableLT α] (xs : List α) : List α :=
  xs.foldl (fun set x => insert x set) []

end NamedContent.SortedList
