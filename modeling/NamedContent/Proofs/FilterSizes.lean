import NamedContent.Proofs.DiscoveryRuns

/-!
How many components the filters outstanding list, for any exclusions at the start, in range or
not: two boundary components, at most as many versions as the configuration says, and the strays.
A version that is one too many for its partition has the partition split; strays have no such
limit, as only a version can be the pivot of a split, so they are counted here along the run.
-/

namespace NamedContent

structure Partition.Fits (p : Partition) (maxExcludes strays : Nat) : Prop where
  ordered : p.Ordered
  excluded_le : p.excluded.length ≤ maxExcludes
  strays_le : p.strays.length ≤ strays

namespace Partition.Fits

variable {p q : Partition} {maxExcludes n : Nat}

theorem mono (h : p.Fits maxExcludes n) {m : Nat} (hle : n ≤ m) : p.Fits maxExcludes m :=
  ⟨h.ordered, h.excluded_le, Nat.le_trans h.strays_le hle⟩

theorem insertStray (h : p.Fits maxExcludes n) (x : Component) :
    (p.insertStray x).Fits maxExcludes (n + 1) :=
  ⟨⟨h.ordered.sorted, h.ordered.lower_le⟩, h.excluded_le,
    Nat.le_trans SortedList.length_insert_le (Nat.succ_le_succ h.strays_le)⟩

theorem insert (h : p.Fits maxExcludes n) {v : Version} (hlow : p.lower ≤ v) :
    (p.insert v).Fits (maxExcludes + 1) n where
  ordered := {
    sorted := SortedList.pairwise_insert h.ordered.sorted
    lower_le := by
      intro u hu
      rcases SortedList.mem_insert.1 hu with rfl | hu
      · exact hlow
      · exact h.ordered.lower_le u hu }
  excluded_le := Nat.le_trans SortedList.length_insert_le (Nat.succ_le_succ h.excluded_le)
  strays_le := h.strays_le

theorem of_mem_parts (h : p.Fits (maxExcludes + 1) n) (hmax : 1 ≤ maxExcludes)
    (hq : q ∈ p.parts maxExcludes) : q.Fits maxExcludes n :=
  ⟨h.ordered.of_mem_parts hq, h.ordered.length_le_of_mem_parts hmax h.excluded_le hq,
    Nat.le_trans (strays_length_le_of_mem_parts hq) h.strays_le⟩

end Partition.Fits

namespace Slot

structure Fits (basename : Name) (config : Config) (strays : Nat) (s : Slot) : Prop where
  partition : s.partition.Fits config.maxExcludes strays
  current : ∀ i, s.outstanding = some i → s.partition.interest basename config = .ok i

variable {basename : Name} {config : Config} {n : Nat} {s : Slot}

theorem fresh_fits {p : Partition} (h : p.Fits config.maxExcludes n) (now : Time) :
    (fresh basename config now p).Fits basename config n := by
  refine ⟨by simpa using h, fun i hi => ?_⟩
  rw [fresh_partition]
  cases hp : p.interest basename config with
  | ok j =>
    rw [fresh_eq hp] at hi
    exact congrArg Except.ok (Option.some.inj hi)
  | error fault => simp [fresh, reissue, hp, clear] at hi

namespace Fits

theorem clear (h : s.Fits basename config n) : s.clear.Fits basename config n :=
  ⟨h.partition, fun i hi => absurd hi (Option.some_ne_none i).symm⟩

theorem renew (h : s.Fits basename config n) (now : Time) :
    (fresh basename config now s.partition).Fits basename config n :=
  fresh_fits h.partition now

theorem mono (h : s.Fits basename config n) {m : Nat} (hle : n ≤ m) :
    s.Fits basename config m :=
  ⟨h.partition.mono hle, h.current⟩

end Fits

end Slot

namespace Discovery

structure Fits (strays : Nat) (d : Discovery) : Prop where
  config_valid : d.config.Valid
  slots : ∀ s ∈ d.slots, s.Fits d.basename d.config strays

variable {d d' : Discovery} {n : Nat} {now : Time} {c : Content} {i : Interest}

theorem create_fits (basename : Name) {config : Config} (trust : Trust)
    (exclusions : List Version) (floor : Option Version) (hvalid : config.Valid) :
    (create basename config trust exclusions floor).Fits 0 := by
  have htwo := hvalid.two_le_maxExcludes
  refine ⟨hvalid, fun s hs => ?_⟩
  obtain ⟨p, hp, rfl⟩ := List.mem_map.1 hs
  obtain ⟨hordered, hstrays, hlen⟩ :=
    Partition.cover_ordered config.maxExcludes (SortedList.pairwise_ofList exclusions) p hp
  refine ⟨⟨hordered, ?_, ?_⟩, fun i hi => absurd hi (Option.some_ne_none i).symm⟩
  · show p.excluded.length ≤ config.maxExcludes
    omega
  · show p.strays.length ≤ 0
    simp [hstrays]

namespace Fits

section Frame

variable {pre post : List Slot} {s : Slot}

theorem slot (h : d.Fits n) (hslots : d.slots = pre ++ s :: post) :
    s.Fits d.basename d.config n :=
  h.slots s (by simp [hslots])

theorem map (h : d.Fits n) (f : Slot → Slot) (hslots : d'.slots = d.slots.map f)
    (hsame : SameTask d d') (hf : ∀ s ∈ d.slots, (f s).Fits d.basename d.config n) :
    d'.Fits n := by
  refine ⟨hsame.config ▸ h.config_valid, fun t ht => ?_⟩
  rw [hslots] at ht
  obtain ⟨s, hs, rfl⟩ := List.mem_map.1 ht
  rw [hsame.basename, hsame.config]
  exact hf s hs

theorem replace (h : d.Fits n) {m : Nat} (hle : n ≤ m) (hslots : d.slots = pre ++ s :: post)
    {news : List Slot} (hslots' : d'.slots = pre ++ news ++ post) (hsame : SameTask d d')
    (hnews : ∀ t ∈ news, t.Fits d.basename d.config m) : d'.Fits m := by
  refine ⟨hsame.config ▸ h.config_valid, fun t ht => ?_⟩
  rw [hsame.basename, hsame.config]
  rw [hslots', List.append_assoc, List.mem_append, List.mem_append] at ht
  rcases ht with ht | ht | ht
  · exact (h.slots t (by simp [hslots, ht])).mono hle
  · exact hnews t ht
  · exact (h.slots t (by simp [hslots, ht])).mono hle

theorem replace_one (h : d.Fits n) {m : Nat} (hle : n ≤ m) (hslots : d.slots = pre ++ s :: post)
    {t : Slot} (hslots' : d'.slots = pre ++ t :: post) (hsame : SameTask d d')
    (ht : t.Fits d.basename d.config m) : d'.Fits m :=
  have hnews : d'.slots = pre ++ [t] ++ post := by simpa using hslots'
  h.replace hle hslots hnews hsame (by simpa using ht)

end Frame

section Events

theorem start (h : d.Fits n) : (d.start now).1.Fits n := by
  by_cases hphase : d.phase = .created
  · rw [start_eq hphase]
    exact h.map (fun s => Slot.fresh d.basename d.config now s.partition) rfl
      ⟨rfl, rfl, rfl, rfl⟩ fun s hs => (h.slots s hs).renew now
  · rwa [Discovery.start, if_neg hphase]

theorem stop (h : d.Fits n) : d.stop.1.Fits n := by
  by_cases hphase : d.phase = .stopped
  · rwa [Discovery.stop, if_pos hphase]
  · rw [stop_eq hphase]
    exact h.map Slot.clear rfl ⟨rfl, rfl, rfl, rfl⟩ fun s hs => (h.slots s hs).clear

theorem refresh (h : d.Fits n) : (d.refresh now).1.Fits n := by
  by_cases hrun : d.isRunning = true
  · refine h.map (fun s => (s.refresh d.basename d.config now).1) (refresh_eq hrun).1
      (refresh_frame d now).1 fun s hs => ?_
    rw [s.refresh_eq]
    split
    · exact (h.slots s hs).renew now
    · exact h.slots s hs
  · rwa [Discovery.refresh, if_neg hrun]

theorem timeout (h : d.Fits n) : (d.timeout now i).1.Fits n := by
  by_cases hrun : d.isRunning = true
  · cases hawait : d.slotAwaiting? i with
    | none => simpa [Discovery.timeout, hrun, hawait] using h
    | some k =>
      obtain ⟨pre, s, post, hslots, rfl, -⟩ := slotAwaiting?_eq_some hawait
      rw [timeout_eq hrun hslots hawait]
      exact h.replace_one (Nat.le_refl _) hslots rfl ⟨rfl, rfl, rfl, rfl⟩
        ((h.slot hslots).renew now)
  · rwa [Discovery.timeout, if_neg hrun]

theorem refused (h : d.Fits n) : (d.refused i).Fits n := by
  simp only [Discovery.refused]
  split
  · rename_i k hk
    obtain ⟨pre, s, post, hslots, rfl, -⟩ := slotAwaiting?_eq_some hk
    have hslots : d.slots = pre ++ s :: post := hslots
    refine h.replace_one (Nat.le_refl _) hslots (t := s.clear) ?_ ⟨rfl, rfl, rfl, rfl⟩
      (h.slot hslots).clear
    show d.slots.modify pre.length Slot.clear = _
    rw [hslots, modify_append_cons]
  · exact ⟨h.config_valid, h.slots⟩

theorem settled (h : d.Fits n) : (d.settled i).1.Fits n :=
  h.map id (by rw [settled_slots, List.map_id]) (settled_frame d i).1 h.slots

end Events

section Arrival

theorem ignore (h : d.Fits n) (asked : Option Nat) : (d.ignore now asked).discovery.Fits n := by
  cases asked with
  | none => exact h
  | some k =>
    cases hget : d.slots[k]? with
    | none => simpa [Discovery.ignore, reissueAt, atSlot, hget] using h
    | some s =>
      obtain ⟨pre, post, hslots, rfl⟩ := exists_split_of_getElem? hget
      rw [ignore_eq now hslots]
      exact h.replace_one (Nat.le_refl _) hslots rfl ⟨rfl, rfl, rfl, rfl⟩
        ((h.slot hslots).renew now)

theorem replaceAt {pre post : List Slot} {s : Slot} (hvalid : d.config.Valid)
    (hslots : d.slots = pre ++ s :: post)
    (hbeside : ∀ t ∈ pre ++ post, t.Fits d.basename d.config n)
    (hs : s.partition.Fits (d.config.maxExcludes + 1) n) :
    (d.replaceAt pre.length now).1.Fits n := by
  have htwo := hvalid.two_le_maxExcludes
  rw [replaceAt_eq now hslots]
  refine ⟨hvalid, fun t ht => ?_⟩
  simp only [List.append_assoc, List.mem_append] at ht
  rcases ht with ht | ht | ht
  · exact hbeside t (List.mem_append_left _ ht)
  · obtain ⟨q, hq, rfl⟩ := List.mem_map.1 ht
    exact Slot.fresh_fits (hs.of_mem_parts (by omega) hq) now
  · exact hbeside t (List.mem_append_right _ ht)

theorem ignore_beside (now : Time) {pre post : List Slot} {s : Slot} {asked : Option Nat}
    (hslots : d.slots = pre ++ s :: post)
    (hbeside : ∀ t ∈ pre ++ post, t.Fits d.basename d.config n)
    (hne : asked ≠ some pre.length) :
    ∃ pre' post', (d.ignore now asked).discovery = { d with slots := pre' ++ s :: post' } ∧
      pre'.length = pre.length ∧ ∀ t ∈ pre' ++ post', t.Fits d.basename d.config n := by
  have hsame : d = { d with slots := pre ++ s :: post } := by rw [← hslots]
  cases asked with
  | none => exact ⟨pre, post, hsame, rfl, hbeside⟩
  | some k =>
    cases hget : d.slots[k]? with
    | none =>
      refine ⟨pre, post, ?_, rfl, hbeside⟩
      simpa [Discovery.ignore, reissueAt, atSlot, hget] using hsame
    | some u =>
      obtain ⟨hu, pre', post', hset, hlen, hmem⟩ := set_beside (fun hk => hne (congrArg some hk))
        (hslots ▸ hget) (Slot.fresh d.basename d.config now u.partition)
      refine ⟨pre', post', ?_, hlen, fun t ht => ?_⟩
      · simp only [Discovery.ignore, reissueAt, atSlot, hget, Slot.reissue_eq]
        rw [hslots, hset]
      · rcases hmem t ht with ht | rfl
        · exact hbeside t ht
        · exact (hbeside u hu).renew now

theorem absorbVersion (h : d.Fits n) {pre post : List Slot} {s : Slot} {v : Version}
    (asked : Option Nat) (hslots : d.slots = pre ++ s :: post) (hlow : s.partition.lower ≤ v) :
    (d.absorbVersion now asked pre.length s v).discovery.Fits n := by
  rw [Discovery.absorbVersion]
  split
  · have hcounted :
        ({ d with metrics.duplicates := d.metrics.duplicates + 1 } : Discovery).Fits n :=
      ⟨h.config_valid, h.slots⟩
    exact hcounted.ignore asked
  · obtain ⟨m, hm, -⟩ := recordVersion_eq d v
    simp only [recordVersion_slots, hm, hslots, set_append_cons]
    have hbeside : ∀ t ∈ pre ++ post, t.Fits d.basename d.config n := fun t ht =>
      h.slots t (hslots ▸ mem_append_cons.2 (.inr ht))
    generalize hgrown : ({ s with partition := s.partition.insert v } : Slot) = g
    have hg : g.partition.Fits (d.config.maxExcludes + 1) n := by
      rw [← hgrown]
      exact (h.slot hslots).partition.insert hlow
    have hother : (if asked = some pre.length then none else asked) ≠ some pre.length := by
      split <;> simp_all
    obtain ⟨pre', post', hfirst, hlen, hbeside'⟩ :=
      ignore_beside (d := { d with slots := pre ++ g :: post, metrics := m }) now rfl hbeside hother
    rw [hfirst, ← hlen]
    exact replaceAt (d := { d with slots := pre' ++ g :: post', metrics := m }) h.config_valid rfl
      hbeside' hg

theorem absorb_version (h : d.Fits n) (asked : Option Nat) (v : Version) :
    (match d.slotCovering? v with
      | none => d.ignore now asked
      | some target =>
        match d.slots[target]? with
        | none => d.ignore now asked
        | some s => d.absorbVersion now asked target s v).discovery.Fits n := by
  split
  · exact h.ignore asked
  · rename_i target htarget
    obtain ⟨pre, s, post, hslots, rfl, hcov, -⟩ := findIdx?_eq_some_split htarget
    rw [hslots, getElem?_append_cons]
    exact h.absorbVersion asked hslots (Partition.covers_iff.1 hcov).1

end Arrival

end Fits

def answeredByStray (d : Discovery) (c : Content) (i : Interest) : Bool :=
  d.isRunning && (d.slotAwaiting? i).isSome && i.accepts d.trust c &&
    (c.name.component? d.basename.length).any fun x => !Version.isComponent x

theorem Fits.arrive (h : d.Fits n) :
    (d.arrive now c i).discovery.Fits (n + (d.answeredByStray c i).toNat) := by
  by_cases hrun : d.isRunning = true
  swap
  · simpa [Discovery.arrive, answeredByStray, hrun] using h
  cases hask : d.slotAwaiting? i with
  | none =>
    have hnot : d.answeredByStray c i = false := by simp [answeredByStray, hask]
    rw [hnot, Discovery.arrive, if_pos hrun, absorb, hask]
    simp only
    split
    · exact h
    · split
      · exact h
      · exact h
      · exact h.absorb_version none _
  | some k =>
    obtain ⟨pre, s, post, hslots, rfl, -⟩ := slotAwaiting?_eq_some hask
    have hs := h.slot hslots
    cases hacc : i.accepts d.trust c with
    | false =>
      rw [arrive_mismatch_eq hrun hslots hask hacc]
      exact h.replace_one (Nat.le_add_right _ _) hslots rfl ⟨rfl, rfl, rfl, rfl⟩
        ((hs.renew now).mono (Nat.le_add_right _ _))
    | true =>
      cases hx : c.name.component? d.basename.length with
      | none =>
        rw [arrive_ended_eq hrun hslots hask hacc hx]
        exact h.replace_one (Nat.le_add_right _ _) hslots rfl ⟨rfl, rfl, rfl, rfl⟩
          (hs.clear.mono (Nat.le_add_right _ _))
      | some x =>
        cases hv : Version.ofComponent x with
        | error fault =>
          have hforeign : Version.isComponent x = false := by simp [Version.isComponent, hv]
          have hstray : d.answeredByStray c i = true := by
            simp [answeredByStray, hrun, hask, hacc, hx, hforeign]
          rw [hstray, arrive_stray_eq hrun hslots hask hacc hx hforeign]
          exact h.replace_one (Nat.le_succ n) hslots rfl ⟨rfl, rfl, rfl, rfl⟩
            (Slot.fresh_fits (hs.partition.insertStray x) now)
        | ok v =>
          have hname := Version.ofNameAt_of_component? hx hv
          have hnot : d.answeredByStray c i = false := by
            simp [answeredByStray, hx, Version.isComponent, hv]
          have hcleared : ({ d with slots := pre ++ s.clear :: post } : Discovery).Fits n :=
            h.replace_one (Nat.le_refl _) hslots rfl ⟨rfl, rfl, rfl, rfl⟩ hs.clear
          rw [hnot, Discovery.arrive, if_pos hrun, absorb, hask]
          simp only [modify_clear hslots, hacc, Bool.not_true, Bool.false_eq_true, if_false, hname]
          exact hcleared.absorb_version (some pre.length) v

def Move.strays (d : Discovery) : Move → Nat
  | .arrive _ c i => (d.answeredByStray c i).toNat
  | _ => 0

theorem Move.fits (m : Move) (h : d.Fits n) : (m.apply d).Fits (n + m.strays d) := by
  cases m with
  | start now => exact h.start
  | stop => exact h.stop
  | refresh now => exact h.refresh
  | timeout now i => exact h.timeout
  | arrive now c i => exact h.arrive
  | refused i => exact h.refused
  | settled i => exact h.settled
  | cancelled => exact ⟨h.config_valid, h.slots⟩

/-- Moves lead to the discovery from one that was created for a valid configuration, and so many
strays have answered on the way. -/
inductive Reached : (strays : Nat) → Discovery → Prop where
  | create (basename : Name) {config : Config} (trust : Trust) (exclusions : List Version)
      (floor : Option Version) (hvalid : config.Valid) :
      Reached 0 (.create basename config trust exclusions floor)
  | move {d : Discovery} {n : Nat} (m : Move) (h : Reached n d) :
      Reached (n + m.strays d) (m.apply d)

theorem Reachable.reached (h : Reachable d) : ∃ n, Reached n d := by
  induction h with
  | create basename trust floor hvalid hrange => exact ⟨0, .create basename trust _ floor hvalid⟩
  | move m _ ih =>
    obtain ⟨n, hn⟩ := ih
    exact ⟨_, .move m hn⟩

namespace Reached

theorem fits (h : Reached n d) : d.Fits n := by
  induction h with
  | create basename trust exclusions floor hvalid =>
    exact create_fits basename trust exclusions floor hvalid
  | move m _ ih => exact m.fits ih

/-- What is outstanding lists two components besides the versions and the strays that its
partition holds, of versions at most as many as the configuration says, and of strays at most as
many as have answered so far. -/
theorem filter_components (h : Reached n d) :
    ∀ i ∈ d.outstanding, ∃ s ∈ d.slots, s.outstanding = some i ∧ ∃ f, i.exclude = some f ∧
      f.components.length = s.partition.excluded.length + s.partition.strays.length + 2 ∧
      s.partition.excluded.length ≤ d.config.maxExcludes ∧ s.partition.strays.length ≤ n := by
  intro i hi
  obtain ⟨s, hs, hout⟩ := List.mem_filterMap.1 hi
  have hfits := h.fits.slots s hs
  obtain ⟨f, hf, rfl⟩ := Partition.interest_name (hfits.current i hout)
  exact ⟨s, hs, hout, f, rfl, Partition.length_components hf, hfits.partition.excluded_le,
    hfits.partition.strays_le⟩

end Reached

def shortAnswer (b : UInt8) (d : Discovery) : Move :=
  .arrive 0 (.unsigned ⟨[[1], [Version.marker, b], [0]]⟩ [])
    (d.outstanding.headD { name := ⟨[]⟩ })

theorem Reached.answered (h : Reached n d) (b : UInt8)
    (hstray : (shortAnswer b d).strays d = 1) : Reached (n + 1) ((shortAnswer b d).apply d) :=
  hstray ▸ .move _ h

def crowded : Discovery :=
  let started := (Move.start 0).apply (create ⟨[[1]]⟩ { maxExcludes := 2 } .exactKey [] none)
  let once := (shortAnswer 1 started).apply started
  let twice := (shortAnswer 2 once).apply once
  (shortAnswer 3 twice).apply twice

theorem reached_crowded : Reached 3 crowded := by
  have hcreated : Reached 0 (create ⟨[[1]]⟩ { maxExcludes := 2 } .exactKey [] none) :=
    .create _ _ _ _ rfl
  have hstarted : Reached 0 ((Move.start 0).apply _) := .move (.start 0) hcreated
  have honce := hstarted.answered 1 (by cbv)
  have htwice := honce.answered 2 (by cbv)
  exact htwice.answered 3 (by cbv)

theorem filter_components_crowded :
    Reached 3 crowded ∧ crowded.partitionCount = 1 ∧ crowded.strayCount = 3 ∧
      ∀ i ∈ crowded.outstanding, ∃ s ∈ crowded.slots, s.outstanding = some i ∧
        ∃ f, i.exclude = some f ∧
          f.components.length = s.partition.excluded.length + s.partition.strays.length + 2 ∧
          s.partition.excluded.length ≤ crowded.config.maxExcludes ∧
          s.partition.strays.length ≤ 3 :=
  ⟨reached_crowded, by cbv, by cbv, reached_crowded.filter_components⟩

/-- With strays the limit does not bound the filter: five components here, for a limit of two. -/
theorem strays_exceed_limit :
    Reached 3 crowded ∧ ∃ i ∈ crowded.outstanding, ∃ f, i.exclude = some f ∧
      crowded.config.maxExcludes + 2 < f.components.length := by
  have hlong : (crowded.outstanding.any fun i => i.exclude.any fun f =>
      decide (crowded.config.maxExcludes + 2 < f.components.length)) = true := by cbv
  obtain ⟨i, hi, hf⟩ := List.any_eq_true.1 hlong
  obtain ⟨f, hf, hlt⟩ := (Option.any_eq_true _ _).1 hf
  exact ⟨reached_crowded, i, hi, f, hf, of_decide_eq_true hlt⟩

end Discovery

end NamedContent
