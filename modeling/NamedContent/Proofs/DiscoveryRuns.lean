import Mathlib.Algebra.Module.Submodule.Lattice
import Mathlib.Computability.TuringMachine.StackTuringMachine
import Mathlib.Data.List.Permutation
import NamedContent.Proofs.ArrivalEffects

/-! Runs of a discovery. A move is an event or what the transport reports back, with any
arguments; a discovery is reachable if moves lead to it from one that was created for a valid
configuration and versions in range. Every reachable discovery is sound, and all that a move adds
to the versions excluded is what an arrival carries.

The modules imported from Mathlib hold the equations by which `cbv` evaluates samples of such
runs. -/

namespace NamedContent

namespace Discovery

inductive Move where
  | start (now : Time)
  | stop
  | refresh (now : Time)
  | timeout (now : Time) (i : Interest)
  | arrive (now : Time) (c : Content) (i : Interest)
  | refused (i : Interest)
  | settled (i : Interest)
  | cancelled

def Move.apply (m : Move) (d : Discovery) : Discovery :=
  match m with
  | .start now => (d.start now).1
  | .stop => d.stop.1
  | .refresh now => (d.refresh now).1
  | .timeout now i => (d.timeout now i).1
  | .arrive now c i => (d.arrive now c i).discovery
  | .refused i => d.refused i
  | .settled i => (d.settled i).1
  | .cancelled => d.cancelled

inductive Reachable : Discovery → Prop where
  | create (basename : Name) {config : Config} (trust : Trust) {exclusions : List Version}
      (floor : Option Version) (hvalid : config.Valid) (hrange : ∀ v ∈ exclusions, v.InRange) :
      Reachable (.create basename config trust exclusions floor)
  | move {d : Discovery} (m : Move) (h : Reachable d) : Reachable (m.apply d)

variable {d : Discovery} {now : Time} {c : Content} {i : Interest} {m : Move}

theorem arrive_sound (h : d.Sound) : (d.arrive now c i).discovery.Sound := by
  by_cases hrun : d.isRunning = true
  · exact (arrive_taken h hrun).sound h hrun
  · rwa [arrive, if_neg hrun]

theorem Move.sound (m : Move) (h : d.Sound) : (m.apply d).Sound := by
  cases m with
  | start now => exact start_sound h
  | stop => exact stop_sound h
  | refresh now => exact refresh_sound h
  | timeout now i => exact timeout_sound h
  | arrive now c i => exact arrive_sound h
  | refused i => exact refused_sound h
  | settled i => exact settled_sound h
  | cancelled => exact cancelled_sound h

theorem Reachable.sound (h : Reachable d) : d.Sound := by
  induction h with
  | create basename trust floor hvalid hrange => exact create_sound hvalid hrange
  | move m _ ih => exact m.sound ih

section Frames

theorem settled_slots (d : Discovery) (i : Interest) : (d.settled i).1.slots = d.slots := by
  simp only [settled]
  split
  · rfl
  · split <;> rfl

theorem outstanding_settled (d : Discovery) (i : Interest) :
    (d.settled i).1.outstanding = d.outstanding := by
  rw [outstanding, settled_slots, outstanding]

theorem settled_frame (d : Discovery) (i : Interest) :
    SameTask d (d.settled i).1 ∧ (d.settled i).1.phase = d.phase := by
  simp only [settled]
  split
  · exact ⟨⟨rfl, rfl, rfl, rfl⟩, rfl⟩
  · split <;> exact ⟨⟨rfl, rfl, rfl, rfl⟩, rfl⟩

theorem refused_frame (d : Discovery) (i : Interest) :
    SameTask d (d.refused i) ∧ (d.refused i).phase = d.phase := by
  simp only [refused]
  split <;> exact ⟨⟨rfl, rfl, rfl, rfl⟩, rfl⟩

theorem start_frame (d : Discovery) (now : Time) : SameTask d (d.start now).1 := by
  rw [start]
  split <;> exact ⟨rfl, rfl, rfl, rfl⟩

theorem stop_frame (d : Discovery) : SameTask d d.stop.1 := by
  rw [stop]
  split <;> exact ⟨rfl, rfl, rfl, rfl⟩

theorem timeout_frame :
    SameTask d (d.timeout now i).1 ∧ (d.timeout now i).1.phase = d.phase := by
  by_cases hrun : d.isRunning = true
  · cases hawait : d.slotAwaiting? i with
    | none => simpa [timeout, hrun, hawait] using SameTask.refl d
    | some k =>
      obtain ⟨pre, s, post, hslots, rfl, -⟩ := slotAwaiting?_eq_some hawait
      rw [timeout_eq hrun hslots hawait]
      exact ⟨⟨rfl, rfl, rfl, rfl⟩, rfl⟩
  · rw [timeout, if_neg hrun]
    exact ⟨.refl d, rfl⟩

theorem arrive_frame (h : d.Sound) :
    SameTask d (d.arrive now c i).discovery ∧ (d.arrive now c i).discovery.phase = d.phase := by
  by_cases hrun : d.isRunning = true
  · exact (arrive_taken h hrun).frame
  · rw [arrive, if_neg hrun]
    exact ⟨.refl d, rfl⟩

theorem Move.sameTask (m : Move) (h : d.Sound) : SameTask d (m.apply d) := by
  cases m with
  | start now => exact start_frame d now
  | stop => exact stop_frame d
  | refresh now => exact (refresh_frame d now).1
  | timeout now i => exact timeout_frame.1
  | arrive now c i => exact (arrive_frame h).1
  | refused i => exact (refused_frame d i).1
  | settled i => exact (settled_frame d i).1
  | cancelled => exact ⟨rfl, rfl, rfl, rfl⟩

end Frames

section Exclusions

def Move.Absorbs (d : Discovery) (v : Version) : Move → Prop
  | .arrive _ c i => d.isRunning = true ∧ d.Carries c i v
  | _ => False

theorem partitions_start :
    (d.start now).1.slots.map (·.partition) = d.slots.map (·.partition) := by
  by_cases hphase : d.phase = .created
  · rw [start_eq hphase]
    exact map_partition (f := fun s => Slot.fresh d.basename d.config now s.partition)
      fun s _ => Slot.fresh_partition
  · rw [start, if_neg hphase]

theorem partitions_stop (d : Discovery) :
    d.stop.1.slots.map (·.partition) = d.slots.map (·.partition) := by
  by_cases hphase : d.phase = .stopped
  · rw [stop, if_pos hphase]
  · rw [stop_eq hphase]
    exact map_partition (f := Slot.clear) fun _ _ => rfl

theorem partitions_refresh :
    (d.refresh now).1.slots.map (·.partition) = d.slots.map (·.partition) := by
  by_cases hrun : d.isRunning = true
  · rw [(refresh_eq hrun).1]
    refine map_partition (f := fun s => (s.refresh d.basename d.config now).1) ?_
    intro s hs
    rw [s.refresh_eq]
    split <;> simp
  · rw [refresh, if_neg hrun]

theorem partitions_timeout :
    (d.timeout now i).1.slots.map (·.partition) = d.slots.map (·.partition) := by
  by_cases hrun : d.isRunning = true
  · cases hawait : d.slotAwaiting? i with
    | none => simp [timeout, hrun, hawait]
    | some k =>
      obtain ⟨pre, s, post, hslots, rfl, -⟩ := slotAwaiting?_eq_some hawait
      rw [timeout_eq hrun hslots hawait, hslots]
      simp
  · rw [timeout, if_neg hrun]

theorem partitions_refused (d : Discovery) :
    (d.refused i).slots.map (·.partition) = d.slots.map (·.partition) := by
  simp only [refused]
  split
  · rename_i k hk
    obtain ⟨pre, s, post, hslots, rfl, hs⟩ := slotAwaiting?_eq_some hk
    have hslots : d.slots = pre ++ s :: post := hslots
    rw [hslots, modify_append_cons]
    simp
  · rfl

theorem partitions_settled (d : Discovery) :
    (d.settled i).1.slots.map (·.partition) = d.slots.map (·.partition) := by
  rw [settled_slots]

theorem isExcluded_arrive_iff (h : d.Sound) (v : Version) :
    (d.arrive now c i).discovery.isExcluded v = true ↔
      d.isExcluded v = true ∨ d.isRunning = true ∧ d.Carries c i v := by
  by_cases hrun : d.isRunning = true
  · rw [(arrive_taken h hrun).isExcluded_iff h hrun]
    simp [hrun]
  · rw [arrive, if_neg hrun]
    simp [hrun]

theorem Move.isExcluded_iff (m : Move) (h : d.Sound) (v : Version) :
    (m.apply d).isExcluded v = true ↔ d.isExcluded v = true ∨ m.Absorbs d v := by
  cases m with
  | start now => simp [apply, Absorbs, isExcluded_congr partitions_start]
  | stop => simp [apply, Absorbs, isExcluded_congr (partitions_stop d)]
  | refresh now => simp [apply, Absorbs, isExcluded_congr partitions_refresh]
  | timeout now i => simp [apply, Absorbs, isExcluded_congr partitions_timeout]
  | arrive now c i => exact isExcluded_arrive_iff h v
  | refused i => simp [apply, Absorbs, isExcluded_congr (partitions_refused d)]
  | settled i => simp [apply, Absorbs, isExcluded_congr (partitions_settled d)]
  | cancelled => exact (or_iff_left fun hfalse : False => hfalse).symm

end Exclusions

end Discovery

end NamedContent
