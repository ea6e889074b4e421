import NamedContent.SortedList

/-! Strictly increasing lists as finite sets: insertion keeps the order and adds one member, and
a member at a known position cuts the list into what lies below it and the rest. -/

namespace NamedContent.SortedList

variable {α : Type} [LT α] [DecidableEq α] [DecidableLT α]

section Insert

variable [Std.Trichotomous (· < · : α → α → Prop)] [Trans (· < · : α → α → Prop) (· < ·) (· < ·)]

theorem pairwise_insert {x : α} {xs : List α} (h : xs.Pairwise (· < ·)) :
    (insert x xs).Pairwise (· < ·) := by
  induction xs with
  | nil => simp [insert]
  | cons y ys ih =>
    obtain ⟨hy, hys⟩ := List.pairwise_cons.1 h
    simp only [insert]
    split
    · rename_i hxy
      refine List.pairwise_cons.2 ⟨fun z hz => ?_, h⟩
      rcases List.mem_cons.1 hz with rfl | hz
      · exact hxy
      · exact Trans.trans hxy (hy z hz)
    · split
      · exact h
      · rename_i hxy hne
        have hyx : y < x := by
          by_cases hyx : y < x
          · exact hyx
          · exact absurd (Std.Trichotomous.trichotomous x y hxy hyx) hne
        refine List.pairwise_cons.2 ⟨fun z hz => ?_, ih hys⟩
        rcases mem_insert.1 hz with rfl | hz
        · exact hyx
        · exact hy z hz

theorem foldl_insert (xs set : List α) (h : set.Pairwise (· < ·)) :
    (xs.foldl (fun set x => insert x set) set).Pairwise (· < ·) ∧
      ∀ z, z ∈ xs.foldl (fun set x => insert x set) set ↔ z ∈ xs ∨ z ∈ set := by
  induction xs generalizing set with
  | nil => simpa using h
  | cons x xs ih =>
    obtain ⟨hsorted, hmem⟩ := ih (insert x set) (pairwise_insert h)
    refine ⟨hsorted, fun z => ?_⟩
    rw [List.foldl_cons, hmem, mem_insert, List.mem_cons]
    constructor
    · rintro (h | h | h) <;> simp [h]
    · rintro ((h | h) | h) <;> simp [h]

theorem pairwise_ofList (xs : List α) : (ofList xs).Pairwise (· < ·) :=
  (foldl_insert xs [] List.Pairwise.nil).1

theorem mem_ofList {xs : List α} {z : α} : z ∈ ofList xs ↔ z ∈ xs := by
  simpa [ofList] using (foldl_insert xs [] List.Pairwise.nil).2 z

end Insert

theorem length_insert [Std.Irrefl (· < · : α → α → Prop)] {x : α} {xs : List α} (h : x ∉ xs) :
    (insert x xs).length = xs.length + 1 := by
  induction xs with
  | nil => rfl
  | cons y ys ih =>
    obtain ⟨hne, hys⟩ := not_or.1 (mt List.mem_cons.2 h)
    simp only [insert, if_neg hne]
    split
    · rfl
    · simp [ih hys]

theorem length_insert_le {x : α} {xs : List α} : (insert x xs).length ≤ xs.length + 1 := by
  induction xs with
  | nil => exact Nat.le_refl _
  | cons y ys ih =>
    simp only [insert]
    split
    · exact Nat.le_refl _
    · split
      · exact Nat.le_succ _
      · exact Nat.succ_le_succ ih

section Cut

variable [Std.Irrefl (· < · : α → α → Prop)] [Trans (· < · : α → α → Prop) (· < ·) (· < ·)]

omit [DecidableEq α] in
theorem filter_lt_getElem {xs : List α} (h : xs.Pairwise (· < ·)) {k : Nat} {x : α}
    (hx : xs[k]? = some x) :
    (xs.filter fun y => decide (y < x)) = xs.take k ∧
      (xs.filter fun y => !decide (y < x)) = xs.drop k := by
  have hsplit : xs = xs.take k ++ x :: xs.drop (k + 1) := by
    obtain ⟨hk, rfl⟩ := List.getElem?_eq_some_iff.1 hx
    rw [← List.drop_eq_getElem_cons hk, List.take_append_drop]
  have hdrop : xs.drop k = x :: xs.drop (k + 1) := by
    obtain ⟨hk, rfl⟩ := List.getElem?_eq_some_iff.1 hx
    exact List.drop_eq_getElem_cons hk
  rw [hsplit, List.pairwise_append] at h
  obtain ⟨-, hafter, hbetween⟩ := h
  have hbelow : ∀ y ∈ xs.take k, y < x := fun y hy => hbetween y hy x List.mem_cons_self
  have hnot : ∀ y ∈ xs.drop k, ¬ y < x := by
    intro y hy hyx
    rw [hdrop] at hy
    rcases List.mem_cons.1 hy with rfl | hy
    · exact Std.Irrefl.irrefl y hyx
    · have hxy : x < y := (List.pairwise_cons.1 hafter).1 y hy
      exact Std.Irrefl.irrefl x (Trans.trans hxy hyx)
  constructor
  · calc xs.filter (fun y => decide (y < x))
        = (xs.take k ++ xs.drop k).filter (fun y => decide (y < x)) := by
          rw [List.take_append_drop]
      _ = xs.take k := by
          rw [List.filter_append, List.filter_eq_self.2 (by simpa using hbelow),
            List.filter_eq_nil_iff.2 (by simpa using hnot), List.append_nil]
  · calc xs.filter (fun y => !decide (y < x))
        = (xs.take k ++ xs.drop k).filter (fun y => !decide (y < x)) := by
          rw [List.take_append_drop]
      _ = xs.drop k := by
          rw [List.filter_append, List.filter_eq_nil_iff.2 (by simpa using hbelow),
            List.filter_eq_self.2 (by simpa using hnot), List.nil_append]

end Cut

end NamedContent.SortedList
