import Mathlib.Algebra.GroupWithZero.Nat
import Mathlib.Order.RelClasses
import NamedContent.Proofs.AccountedMoves

/-! Why a call returns. Of what is held each version is answered once, and each stray once for a
slot; so the versions that are still new become fewer, or the strays do. Apart from that a step
lessens what is left on the agenda. -/

namespace NamedContent

namespace Discovery

def lacks (d : Discovery) (c : Content) : Bool :=
  match Version.ofNameAt c.name d.basename.length with
  | .ok v => !d.isExcluded v
  | .error _ => false

def misses (d : Discovery) (p : Partition) (c : Content) : Bool :=
  match c.name.component? d.basename.length with
  | some x => !p.strays.contains x
  | none => false

def lacking (d : Discovery) (cs : List Content) : Nat := cs.countP d.lacks

def missing (d : Discovery) (cs : List Content) : Nat :=
  ((d.slots.map (·.partition)).map fun p => cs.countP (d.misses p)).sum

variable {d d' : Discovery} {cs : List Content} {c : Content} {i : Interest} {now : Time}

theorem countP_lt {α : Type} {p q : α → Bool} {xs : List α} {x : α}
    (hle : ∀ y, p y = true → q y = true) (hx : x ∈ xs) (hp : p x = false) (hq : q x = true) :
    xs.countP p < xs.countP q := by
  obtain ⟨pre, post, rfl⟩ := List.append_of_mem hx
  have hpre : pre.countP p ≤ pre.countP q := List.countP_mono_left fun y _ => hle y
  have hpost : post.countP p ≤ post.countP q := List.countP_mono_left fun y _ => hle y
  simp only [List.countP_append, List.countP_cons, hp, hq, if_true, Bool.false_eq_true, if_false]
  omega

theorem lacking_congr (hsame : SameTask d d') (hex : ∀ v, d'.isExcluded v = d.isExcluded v) :
    d'.lacking cs = d.lacking cs := by
  have hlacks : d'.lacks = d.lacks := by
    funext c
    simp only [lacks, hsame.basename, hex]
  rw [lacking, lacking, hlacks]

theorem missing_congr (hsame : SameTask d d')
    (hparts : d'.slots.map (·.partition) = d.slots.map (·.partition)) :
    d'.missing cs = d.missing cs := by
  have hmisses : d'.misses = d.misses := by
    funext p c
    simp only [misses, hsame.basename]
  rw [missing, missing, hparts, hmisses]

theorem Level.lacking_eq (h : Level d d') (cs : List Content) : d'.lacking cs = d.lacking cs :=
  lacking_congr h.same h.excluded

theorem Level.missing_eq (h : Level d d') (cs : List Content) : d'.missing cs = d.missing cs :=
  missing_congr h.same h.partitions

theorem lacking_lt {v : Version} (hsame : SameTask d d') (hc : c ∈ cs)
    (hv : Version.ofNameAt c.name d.basename.length = .ok v) (hnew : d.isExcluded v = false)
    (hold : d'.isExcluded v = true)
    (hmono : ∀ v, d.isExcluded v = true → d'.isExcluded v = true) :
    d'.lacking cs < d.lacking cs := by
  refine countP_lt (fun b hb => ?_) hc ?_ ?_
  · simp only [lacks, hsame.basename] at hb ⊢
    split at hb
    · rename_i u hu
      simp only [Bool.not_eq_eq_eq_not, Bool.not_true] at hb ⊢
      rw [← Bool.not_eq_true]
      intro htrue
      rw [hmono u htrue] at hb
      cases hb
    · cases hb
  · simp [lacks, hsame.basename, hv, hold]
  · simp [lacks, hv, hnew]

theorem missing_lt {x : Component} {pre post : List Slot} {s t : Slot} (hsame : SameTask d d')
    (hslots : d.slots = pre ++ s :: post) (hslots' : d'.slots = pre ++ t :: post) (hc : c ∈ cs)
    (hx : c.name.component? d.basename.length = some x) (hnew : x ∉ s.partition.strays)
    (ht : t.partition = s.partition.insertStray x) : d'.missing cs < d.missing cs := by
  have hmisses : d'.misses = d.misses := by
    funext p c
    simp only [misses, hsame.basename]
  have hlt : cs.countP (d.misses t.partition) < cs.countP (d.misses s.partition) := by
    refine countP_lt (fun b hb => ?_) hc ?_ ?_
    · rw [ht] at hb
      simp only [misses] at hb ⊢
      split at hb
      · rename_i y hy
        simp only [Partition.insertStray, Bool.not_eq_eq_eq_not, Bool.not_true,
          ← Bool.not_eq_true, List.contains_iff_mem, SortedList.mem_insert, not_or] at hb ⊢
        exact hb.2
      · cases hb
    · simp [misses, hx, ht, Partition.insertStray, SortedList.mem_insert]
    · simp [misses, hx, hnew]
  rw [missing, missing, hslots, hslots', hmisses]
  simp only [List.map_append, List.map_cons, List.sum_append, List.sum_cons]
  omega

/-- An answer that goes on after the base name brings a version that was new, or a stray that was
new to the slot that asked. -/
theorem Sound.arrive_lessens (now : Time) (h : d.Sound) (hc : c ∈ cs) (hi : i ∈ d.outstanding)
    (hacc : i.accepts d.trust c = true) {x : Component}
    (hx : c.name.component? d.basename.length = some x) :
    (d.arrive now c i).discovery.lacking cs < d.lacking cs ∨
      (d.arrive now c i).discovery.lacking cs = d.lacking cs ∧
        (d.arrive now c i).discovery.missing cs < d.missing cs := by
  obtain ⟨pre, s, post, hslots, hs, hask⟩ := exists_awaiting hi
  obtain ⟨hsame, -⟩ := @arrive_frame d now c i h
  have hmem : s ∈ d.slots := by simp [hslots]
  have hrun : d.isRunning = true := h.isRunning_of_outstanding hi
  have hexcluded := @isExcluded_arrive_iff d now c i h
  cases hv : Version.ofComponent x with
  | ok v =>
    have hname := Version.ofNameAt_of_component? hx hv
    obtain ⟨hcov, hnew⟩ := h.answer_version hmem hs hacc hname
    rw [← h.isExcluded_iff_of_covers hmem hcov, Bool.not_eq_true] at hnew
    refine .inl (lacking_lt hsame hc hname hnew ?_ ?_)
    · exact (hexcluded v).2 (.inr ⟨hrun, hacc, hname⟩)
    · exact fun u hu => (hexcluded u).2 (.inl hu)
  | error fault =>
    have hforeign : Version.isComponent x = false := by simp [Version.isComponent, hv]
    obtain ⟨-, hadmits⟩ := h.answer_admitted hmem hs hacc hx
    have hslots' : (d.arrive now c i).discovery.slots =
        pre ++ Slot.fresh d.basename d.config now (s.partition.insertStray x) :: post := by
      rw [arrive_stray_eq hrun hslots hask hacc hx hforeign]
    refine .inr ⟨lacking_congr hsame fun u => ?_, ?_⟩
    · exact isExcluded_replace_one hslots hslots' (by simp [Partition.insertStray])
        (by simp [Partition.insertStray]) (by simp [Partition.insertStray]) u
    · exact missing_lt hsame hslots hslots' hc hx hadmits.2.2 Slot.fresh_partition

end Discovery

def Precedes : Nat × Nat × Nat × Nat → Nat × Nat × Nat × Nat → Prop :=
  Prod.Lex (· < ·) (Prod.Lex (· < ·) (Prod.Lex (· < ·) (· < ·)))

theorem precedes_wellFounded : WellFounded Precedes :=
  WellFounded.prod_lex Nat.lt_wfRel.wf
    (WellFounded.prod_lex Nat.lt_wfRel.wf (WellFounded.prod_lex Nat.lt_wfRel.wf Nat.lt_wfRel.wf))

namespace Session

variable {α β : Type} {P : Session → α → Prop} {r : β → β → Prop} {f : Session → α → β}
  {s : Session} {a : α}

theorem step_of_nil (h : s.agenda = []) : s.step = s := by
  rw [step, h]

theorem finish_induction {K : Session → Prop} (hstep : ∀ {s}, K s → K s.step) (h : K s)
    (fuel : Nat) : K (s.finish fuel) := by
  induction fuel generalizing s with
  | zero => exact h
  | succ fuel ih =>
    rw [finish]
    split
    · exact h
    · exact ih (hstep h)

theorem finish_keeps (hstep : ∀ {s a}, P s a → s.agenda ≠ [] → ∃ a', P s.step a') (h : P s a)
    (fuel : Nat) : ∃ a', P (s.finish fuel) a' := by
  induction fuel generalizing s a with
  | zero => exact ⟨a, h⟩
  | succ fuel ih =>
    rw [finish]
    cases hagenda : s.agenda with
    | nil => exact ⟨a, h⟩
    | cons task rest =>
      obtain ⟨a', hnext⟩ := hstep h (by simp [hagenda])
      exact ih hnext

theorem finish_ends (hwf : WellFounded r)
    (hstep : ∀ {s a}, P s a → s.agenda ≠ [] → ∃ a', P s.step a' ∧ r (f s.step a') (f s a))
    (h : P s a) : ∃ fuel, (s.finish fuel).agenda = [] := by
  induction hr : f s a using hwf.induction generalizing s a with
  | _ b ih =>
    subst hr
    cases hagenda : s.agenda with
    | nil => exact ⟨0, hagenda⟩
    | cons task rest =>
      obtain ⟨a', hnext, hless⟩ := hstep h (by simp [hagenda])
      obtain ⟨fuel, hdone⟩ := ih _ hless hnext rfl
      refine ⟨fuel + 1, ?_⟩
      rw [finish, hagenda]
      exact hdone

end Session

end NamedContent
