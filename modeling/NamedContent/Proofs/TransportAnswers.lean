import NamedContent.Transport

/-! What the transport answers: content that is held and that the Interest accepts. Until it is
answered, expired or cancelled an Interest that nothing held matches waits, and what waits is
counted as a multiset. -/

namespace NamedContent.Transport

theorem foldl_select_mem {α : Type} {f : α → α → α} (hf : ∀ a b, f a b = a ∨ f a b = b)
    (xs : List α) (x : α) : xs.foldl f x ∈ x :: xs := by
  induction xs generalizing x with
  | nil => exact List.mem_cons_self
  | cons y ys ih =>
    rw [List.foldl_cons]
    rcases List.mem_cons.1 (ih (f x y)) with heq | hmem
    · rw [heq]
      rcases hf x y with hx | hy
      · rw [hx]
        exact List.mem_cons_self
      · rw [hy]
        exact List.mem_cons_of_mem _ List.mem_cons_self
    · exact List.mem_cons_of_mem _ (List.mem_cons_of_mem _ hmem)

theorem leftmost_mem {cs : List Content} {c : Content} (h : leftmost cs = some c) : c ∈ cs := by
  cases cs with
  | nil => cases h
  | cons b rest =>
    rw [leftmost, Option.some.injEq] at h
    rw [← h]
    refine foldl_select_mem (fun a b => ?_) rest b
    split
    · exact .inr rfl
    · exact .inl rfl

theorem rightmost_mem {cs : List Content} {c : Content} (h : rightmost cs = some c) : c ∈ cs := by
  cases cs with
  | nil => cases h
  | cons b rest =>
    rw [rightmost, Option.some.injEq] at h
    rw [← h]
    refine foldl_select_mem (fun a b => ?_) rest b
    split
    · exact .inl rfl
    · exact .inr rfl

variable {H : Type} {t t' : Transport H} {i j : Interest} {c : Content} {h : H}

theorem bestMatch_eq_some (hbest : t.bestMatch i = some c) :
    c ∈ t.store ∧ i.accepts .exactKey c = true := by
  have hmem : c ∈ t.store.filter (i.accepts .exactKey) := by
    simp only [bestMatch] at hbest
    split at hbest
    · exact rightmost_mem hbest
    · exact leftmost_mem hbest
  exact List.mem_filter.1 hmem

theorem bestMatch_eq_none (hbest : t.bestMatch i = none) (hc : c ∈ t.store) :
    i.accepts .exactKey c = false := by
  have hnil : t.store.filter (i.accepts .exactKey) = [] := by
    simp only [bestMatch] at hbest
    cases hcandidates : t.store.filter (i.accepts .exactKey) with
    | nil => rfl
    | cons b rest =>
      rw [hcandidates] at hbest
      split at hbest
      · cases hbest
      · cases hbest
  rw [← Bool.not_eq_true]
  exact List.filter_eq_nil_iff.1 hnil c hc

def waiting (t : Transport H) : List Interest := t.pending.map (·.interest)

theorem express_refused (hready : t.refusals = 0) : t.express i h ≠ (t', .refused) := by
  rw [express, hready, if_neg (Nat.lt_irrefl 0)]
  simp only
  split <;> simp

theorem express_waiting (hready : t.refusals = 0) (hexpress : t.express i h = (t', .waiting)) :
    t'.store = t.store ∧ t'.refusals = 0 ∧ t'.pending = t.pending ++ [⟨i, h⟩] ∧
      ∀ c ∈ t.store, i.accepts .exactKey c = false := by
  rw [express, hready, if_neg (Nat.lt_irrefl 0)] at hexpress
  simp only at hexpress
  split at hexpress
  · rename_i hbest
    simp only [Prod.mk.injEq, and_true] at hexpress
    rw [← hexpress]
    exact ⟨rfl, rfl, rfl, fun c hc => bestMatch_eq_none hbest hc⟩
  · simp at hexpress

theorem express_answered (hready : t.refusals = 0)
    (hexpress : t.express i h = (t', .answered c)) :
    t'.store = t.store ∧ t'.refusals = 0 ∧ t'.pending = t.pending ∧ c ∈ t.store ∧
      i.accepts .exactKey c = true := by
  rw [express, hready, if_neg (Nat.lt_irrefl 0)] at hexpress
  simp only at hexpress
  split at hexpress
  · simp at hexpress
  · rename_i b hbest
    simp only [Prod.mk.injEq, Expression.answered.injEq] at hexpress
    obtain ⟨ht, rfl⟩ := hexpress
    rw [← ht]
    obtain ⟨hmem, hacc⟩ := bestMatch_eq_some hbest
    exact ⟨rfl, rfl, rfl, hmem, hacc⟩

theorem publish_unasked (hpublish : t.publish c = (t', none)) :
    t'.store = t.store ++ [c] ∧ t'.refusals = t.refusals ∧ t'.pending = t.pending ∧
      ∀ i ∈ t.waiting, i.accepts .exactKey c = false := by
  simp only [publish] at hpublish
  split at hpublish
  · rename_i hfind
    simp only [Prod.mk.injEq, and_true] at hpublish
    rw [← hpublish]
    refine ⟨rfl, rfl, rfl, fun i hi => ?_⟩
    obtain ⟨p, hp, rfl⟩ := List.mem_map.1 hi
    rw [← Bool.not_eq_true]
    exact List.find?_eq_none.1 hfind p hp
  · simp at hpublish

theorem publish_answers {p : Pending H} (hpublish : t.publish c = (t', some p)) :
    t'.store = t.store ++ [c] ∧ t'.refusals = t.refusals ∧
      t.pending.Perm (p :: t'.pending) ∧ p.interest.accepts .exactKey c = true := by
  simp only [publish] at hpublish
  split at hpublish
  · simp at hpublish
  · rename_i q hfind
    simp only [Prod.mk.injEq, Option.some.injEq] at hpublish
    obtain ⟨ht, rfl⟩ := hpublish
    rw [← ht]
    obtain ⟨hacc, pre, post, hpending, hpre⟩ := List.find?_eq_some_iff_append.1 hfind
    refine ⟨rfl, rfl, ?_, hacc⟩
    have hnot : ∀ q ∈ pre, ¬ (q.interest.accepts .exactKey c = true) := fun q hq => by
      simpa using hpre q hq
    show t.pending.Perm (q :: t.pending.eraseP _)
    rw [hpending, List.eraseP_append_right _ hnot,
      List.eraseP_cons_of_pos (p := fun b : Pending H => b.interest.accepts .exactKey c) hacc]
    exact List.perm_middle

theorem cancel_frame [DecidableEq H] (t : Transport H) (i : Interest) (h : H) :
    (t.cancel i h).store = t.store ∧ (t.cancel i h).refusals = t.refusals ∧
      (t.cancel i h).pending.Sublist t.pending := by
  rw [cancel]
  split
  · exact ⟨rfl, rfl, List.erase_sublist⟩
  · exact ⟨rfl, rfl, List.Sublist.refl _⟩

end NamedContent.Transport
