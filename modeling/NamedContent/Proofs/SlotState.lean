import NamedContent.Discovery
import NamedContent.Proofs.PartitionCover
import NamedContent.Proofs.PartitionInterest

/-! The states of a slot: idle, or live with the Interest of its partition outstanding. A slot is
sound if its partition is well formed and within the limit; expressing it anew makes it live
whatever it was before, since the Interest of a well formed partition can be built. -/

namespace NamedContent

section Positions

variable {α : Type}

theorem exists_split_of_getElem? {xs : List α} {k : Nat} {x : α} (h : xs[k]? = some x) :
    ∃ pre post, xs = pre ++ x :: post ∧ pre.length = k := by
  obtain ⟨hk, rfl⟩ := List.getElem?_eq_some_iff.1 h
  refine ⟨xs.take k, xs.drop (k + 1), ?_, ?_⟩
  · rw [← List.drop_eq_getElem_cons hk, List.take_append_drop]
  · rw [List.length_take]
    omega

theorem findIdx?_eq_some_split {p : α → Bool} {xs : List α} {k : Nat}
    (h : xs.findIdx? p = some k) :
    ∃ pre x post, xs = pre ++ x :: post ∧ pre.length = k ∧ p x = true ∧
      ∀ y ∈ pre, p y = false := by
  obtain ⟨hk, hx, hbefore⟩ := List.findIdx?_eq_some_iff_getElem.1 h
  generalize hget : xs[k] = x at hx
  obtain ⟨pre, post, rfl, rfl⟩ :=
    exists_split_of_getElem? (List.getElem?_eq_some_iff.2 ⟨hk, hget⟩)
  refine ⟨pre, x, post, rfl, rfl, hx, fun y hy => ?_⟩
  obtain ⟨j, hj, rfl⟩ := List.getElem_of_mem hy
  have hyj := hbefore j hj
  rwa [List.getElem_append_left hj, Bool.not_eq_true] at hyj

theorem findIdx?_append_cons {p : α → Bool} {pre post : List α} {x : α}
    (hpre : ∀ y ∈ pre, p y = false) (hx : p x = true) :
    (pre ++ x :: post).findIdx? p = some pre.length := by
  rw [List.findIdx?_append, List.findIdx?_eq_none_iff.2 (by simpa using hpre)]
  simp [List.findIdx?_cons, hx]

theorem mem_append_cons {pre post : List α} {x y : α} :
    y ∈ pre ++ x :: post ↔ y = x ∨ y ∈ pre ++ post := by
  rw [List.mem_append, List.mem_cons, List.mem_append]
  exact or_left_comm

theorem getElem?_append_cons (pre post : List α) (x : α) :
    (pre ++ x :: post)[pre.length]? = some x := by
  simp

theorem set_append_cons (pre post : List α) (x y : α) :
    (pre ++ x :: post).set pre.length y = pre ++ y :: post := by
  simp

theorem set_beside {pre post : List α} {x y : α} {k : Nat} (hne : k ≠ pre.length)
    (h : (pre ++ x :: post)[k]? = some y) (z : α) :
    y ∈ pre ++ post ∧ ∃ pre' post', (pre ++ x :: post).set k z = pre' ++ x :: post' ∧
      pre'.length = pre.length ∧ ∀ w ∈ pre' ++ post', w ∈ pre ++ post ∨ w = z := by
  rcases Nat.lt_or_gt_of_ne hne with hk | hk
  · rw [List.getElem?_append_left hk] at h
    refine ⟨List.mem_append_left _ (List.mem_of_getElem? h), pre.set k z, post,
      List.set_append_left _ _ hk, List.length_set, fun w hw => ?_⟩
    rcases List.mem_append.1 hw with hw | hw
    · exact (List.mem_or_eq_of_mem_set hw).imp_left (List.mem_append_left _)
    · exact .inl (List.mem_append_right _ hw)
  · obtain ⟨j, rfl⟩ : ∃ j, k = pre.length + (j + 1) := ⟨k - pre.length - 1, by omega⟩
    rw [List.getElem?_append_right (Nat.le_add_right _ _), Nat.add_sub_cancel_left,
      List.getElem?_cons_succ] at h
    refine ⟨List.mem_append_right _ (List.mem_of_getElem? h), pre, post.set j z, ?_, rfl,
      fun w hw => ?_⟩
    · rw [List.set_append_right _ _ (Nat.le_add_right _ _), Nat.add_sub_cancel_left,
        List.set_cons_succ]
    · rcases List.mem_append.1 hw with hw | hw
      · exact .inl (List.mem_append_left _ hw)
      · exact (List.mem_or_eq_of_mem_set hw).imp_left (List.mem_append_right _)

theorem modify_append_cons (pre post : List α) (x : α) (f : α → α) :
    (pre ++ x :: post).modify pre.length f = pre ++ f x :: post := by
  induction pre with
  | nil => rfl
  | cons y pre ih => simpa using ih

end Positions

theorem Config.Valid.two_le_maxExcludes {c : Config} (h : c.Valid) : 2 ≤ c.maxExcludes := by
  rw [Config.Valid, Config.fault?] at h
  split at h
  · cases h
  · rename_i hmax
    exact Nat.le_of_not_lt hmax

namespace Slot

def Idle (s : Slot) : Prop := s.outstanding = none ∧ s.expressedAt = none

/-- The Interest of the partition as it is now is outstanding. -/
def Live (basename : Name) (config : Config) (s : Slot) : Prop :=
  ∃ i since, s.outstanding = some i ∧ s.expressedAt = some since ∧
    s.partition.interest basename config = .ok i

structure Sound (basename : Name) (config : Config) (s : Slot) : Prop where
  wellFormed : s.partition.WellFormed
  length_le : s.partition.excluded.length ≤ config.maxExcludes
  idle_or_live : s.Idle ∨ s.Live basename config

def fresh (basename : Name) (config : Config) (now : Time) (p : Partition) : Slot :=
  (reissue basename config now { partition := p }).1

def expressions (ss : List Slot) : List Action :=
  ss.filterMap fun s => s.outstanding.map .express

theorem expressions_append (ss ts : List Slot) :
    expressions (ss ++ ts) = expressions ss ++ expressions ts :=
  List.filterMap_append

variable {basename : Name} {config : Config} {now : Time} {s : Slot} {p : Partition}

@[simp] theorem clear_partition (s : Slot) : s.clear.partition = s.partition := rfl

theorem clear_idle (s : Slot) : s.clear.Idle := ⟨rfl, rfl⟩

@[simp] theorem fresh_partition : (fresh basename config now p).partition = p := by
  unfold fresh reissue
  split <;> rfl

theorem fresh_eq {i : Interest} (hi : p.interest basename config = .ok i) :
    fresh basename config now p =
      { partition := p, outstanding := some i, expressedAt := some now } := by
  simp [fresh, reissue, hi]

theorem fresh_live (h : p.WellFormed) : (fresh basename config now p).Live basename config := by
  obtain ⟨f, -, -, hi⟩ := h.interest_eq_ok basename config
  rw [fresh_eq hi]
  exact ⟨_, now, rfl, rfl, hi⟩

theorem fresh_sound (h : p.WellFormed) (hlen : p.excluded.length ≤ config.maxExcludes) :
    (fresh basename config now p).Sound basename config :=
  ⟨by simpa using h, by simpa using hlen, .inr (fresh_live h)⟩

section Reissue

variable (basename config now)

theorem reissue_eq (s : Slot) :
    s.reissue basename config now =
      (fresh basename config now s.partition,
        expressions [fresh basename config now s.partition]) := by
  cases hi : s.partition.interest basename config with
  | ok i =>
    rw [fresh_eq hi, reissue, hi]
    rfl
  | error fault =>
    simp only [fresh, reissue, hi]
    rfl

theorem reissue_all (ss : List Slot) :
    ss.map (fun s => (s.reissue basename config now).1) =
        ss.map (fun s => fresh basename config now s.partition) ∧
      ss.flatMap (fun s => (s.reissue basename config now).2) =
        expressions (ss.map fun s => fresh basename config now s.partition) := by
  simp only [reissue_eq, true_and]
  induction ss with
  | nil => rfl
  | cons s ss ih =>
    rw [List.flatMap_cons, List.map_cons, ih]
    exact (expressions_append [_] _).symm

end Reissue

theorem Sound.clear (h : s.Sound basename config) : s.clear.Sound basename config :=
  ⟨h.wellFormed, h.length_le, .inl s.clear_idle⟩

theorem Sound.renew (h : s.Sound basename config) :
    (fresh basename config now s.partition).Sound basename config :=
  fresh_sound h.wellFormed h.length_le

theorem Sound.interest_eq_ok (h : s.Sound basename config) {i : Interest}
    (hi : s.outstanding = some i) : s.partition.interest basename config = .ok i := by
  rcases h.idle_or_live with hidle | ⟨j, since, hj, -, hok⟩
  · rw [hidle.1] at hi
    cases hi
  · rw [hj] at hi
    rwa [← Option.some.inj hi]

theorem refresh_eq (s : Slot) :
    s.refresh basename config now =
      if s.isDue config.lifetime now then
        (fresh basename config now s.partition,
          s.withdrawal ++ expressions [fresh basename config now s.partition])
      else (s, []) := by
  rw [refresh, reissue_eq]

end Slot

end NamedContent
