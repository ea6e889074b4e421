import Mathlib.Data.List.Dedup
import NamedContent.Proofs.DeliverySafety
import NamedContent.Proofs.TendedSessions

/-! The counters of a discovery balance. A version that is taken in is counted once, as handed over
or as below the floor, and becomes one exclusion of one partition. A split passes the exclusions of
a partition on to its halves, in their order, and adds one partition to those there are. No other
event touches either number, and a refusal is no exception.

Counters here are natural numbers, so what is said is said of counters that have not wrapped. -/

namespace NamedContent

theorem Partition.Ordered.excluded_parts {p : Partition} (h : p.Ordered) (maxExcludes : Nat) :
    (p.parts maxExcludes).flatMap (·.excluded) = p.excluded := by
  rcases p.parts_eq maxExcludes with ⟨heq, -⟩ | ⟨l, r, hs, heq⟩
  · simp [heq]
  · obtain ⟨pivot, u, hpivot, -, -, rfl, rfl⟩ := Partition.split?_eq_some_iff.1 hs
    obtain ⟨hleft, hright⟩ := SortedList.filter_lt_getElem h.sorted hpivot
    simp only [heq, List.flatMap_cons, List.flatMap_nil, List.append_nil, hleft, hright,
      List.take_append_drop]

def Metrics.taken (m : Metrics) : Nat := m.delivered + m.belowFloor

namespace Discovery

variable {d d' : Discovery} {now : Time} {c : Content} {i : Interest}

def exclusions (d : Discovery) : List Version :=
  (d.slots.map (·.partition)).flatMap (·.excluded)

theorem exclusionCount_eq (d : Discovery) : d.exclusionCount = d.exclusions.length := by
  rw [exclusionCount, exclusions]
  induction d.slots with
  | nil => rfl
  | cons s slots ih =>
    rw [List.foldr_cons, ih, List.map_cons, List.flatMap_cons, List.length_append]

/-- From one discovery to the other, as many exclusions have come in as versions were counted, and
as many partitions as splits. -/
structure Balances (d d' : Discovery) : Prop where
  exclusions : d'.exclusionCount + d.metrics.taken = d.exclusionCount + d'.metrics.taken
  partitions : d'.partitionCount + d.metrics.splits = d.partitionCount + d'.metrics.splits

namespace Balances

theorem refl (d : Discovery) : Balances d d := ⟨rfl, rfl⟩

theorem trans {e : Discovery} (h : Balances d d') (h' : Balances d' e) : Balances d e := by
  obtain ⟨hexclusions, hpartitions⟩ := h
  obtain ⟨hexclusions', hpartitions'⟩ := h'
  constructor <;> omega

theorem of_partitions (hparts : d'.slots.map (·.partition) = d.slots.map (·.partition))
    (htaken : d'.metrics.taken = d.metrics.taken) (hsplits : d'.metrics.splits = d.metrics.splits) :
    Balances d d' := by
  have hcount : d'.partitionCount = d.partitionCount := by
    simpa [partitionCount] using congrArg List.length hparts
  refine ⟨?_, by rw [hcount, hsplits]⟩
  rw [exclusionCount_eq, exclusionCount_eq, Discovery.exclusions, Discovery.exclusions, hparts,
    htaken]

theorem of_replace_one {pre post : List Slot} {s t : Slot} (hslots : d.slots = pre ++ s :: post)
    (hslots' : d'.slots = pre ++ t :: post)
    (hexcluded : t.partition.excluded = s.partition.excluded)
    (hmetrics : d'.metrics = d.metrics) : Balances d d' := by
  refine ⟨?_, ?_⟩
  · simp only [exclusionCount_eq, Discovery.exclusions, hslots, hslots', List.map_append,
      List.map_cons, List.flatMap_append, List.flatMap_cons, hexcluded, hmetrics]
  · simp only [partitionCount, hslots, hslots', List.length_append, List.length_cons, hmetrics]

end Balances

theorem taken_recordVersion (d : Discovery) (v : Version) :
    (d.recordVersion v).1.metrics.taken = d.metrics.taken + 1 := by
  rw [recordVersion, Metrics.taken, Metrics.taken]
  split
  · split
    · rfl
    · exact Nat.add_right_comm _ _ _
  · exact Nat.add_right_comm _ _ _

theorem balances_grown {pre post : List Slot} {s : Slot} {v : Version} (h : d.Sound)
    (hslots : d.slots = pre ++ s :: post) (hcov : s.partition.covers v = true)
    (hnew : v ∉ s.partition.excluded) : Balances d (d.grown now pre s post v) := by
  have hordered : (s.partition.insert v).Ordered :=
    ((h.slot hslots).wellFormed.insert_version hcov).ordered
  have hlength : (s.partition.insert v).excluded.length = s.partition.excluded.length + 1 :=
    SortedList.length_insert hnew
  have hexclusions : (d.grown now pre s post v).exclusions.length = d.exclusions.length + 1 := by
    simp only [exclusions, grown_slots, hslots, List.map_append, List.map_cons,
      renewed_partitions, List.flatMap_append, List.flatMap_cons, hordered.excluded_parts,
      List.length_append, hlength]
    omega
  have htaken : (d.grown now pre s post v).metrics.taken = d.metrics.taken + 1 :=
    taken_recordVersion d v
  have hsome : 1 ≤ (d.renewed now s.partition v).length := by
    rw [renewed, List.length_map]
    rcases (s.partition.insert v).parts_eq d.config.maxExcludes with ⟨heq, -⟩ | ⟨l, r, -, heq⟩ <;>
      simp [heq]
  refine ⟨?_, ?_⟩
  · rw [exclusionCount_eq, exclusionCount_eq, hexclusions, htaken]
    omega
  · simp only [partitionCount, hslots, List.length_append, List.length_cons, grown]
    omega

theorem Taken.balances {a : Absorbed} (ht : Taken d now c i a) (h : d.Sound) :
    Balances d a.discovery := by
  cases ht with
  | passedOver => exact .refl d
  | duplicate => exact ⟨rfl, rfl⟩
  | unasked _ _ _ hslots hcov hnew => exact balances_grown h hslots hcov hnew
  | mismatch hslots => exact .of_replace_one hslots rfl (by simp) rfl
  | ended hslots => exact .of_replace_one hslots rfl (by simp) rfl
  | stray hslots => exact .of_replace_one hslots rfl (by simp [Partition.insertStray]) rfl
  | version hslots _ _ _ hcov hnew => exact balances_grown h hslots hcov hnew

theorem balances_arrive (h : d.Sound) : Balances d (d.arrive now c i).discovery := by
  by_cases hrun : d.isRunning = true
  · exact (arrive_taken h hrun).balances h
  · rw [arrive, if_neg hrun]
    exact .refl d

theorem balances_start (d : Discovery) (now : Time) : Balances d (d.start now).1 := by
  have hmetrics : (d.start now).1.metrics = d.metrics := by
    rw [start]
    split <;> rfl
  exact .of_partitions partitions_start (by rw [hmetrics]) (by rw [hmetrics])

theorem balances_stop (d : Discovery) : Balances d d.stop.1 := by
  have hmetrics : d.stop.1.metrics = d.metrics := by
    rw [stop]
    split <;> rfl
  exact .of_partitions (partitions_stop d) (by rw [hmetrics]) (by rw [hmetrics])

theorem balances_refresh (d : Discovery) (now : Time) : Balances d (d.refresh now).1 := by
  have hmetrics : (d.refresh now).1.metrics = d.metrics := by
    rw [refresh]
    split <;> rfl
  exact .of_partitions partitions_refresh (by rw [hmetrics]) (by rw [hmetrics])

theorem balances_timeout (d : Discovery) (now : Time) (i : Interest) :
    Balances d (d.timeout now i).1 := by
  have hcounters : (d.timeout now i).1.metrics.taken = d.metrics.taken ∧
      (d.timeout now i).1.metrics.splits = d.metrics.splits := by
    rw [timeout]
    split
    · split
      · exact ⟨rfl, rfl⟩
      · rw [reissueAt, atSlot]
        split <;> exact ⟨rfl, rfl⟩
    · exact ⟨rfl, rfl⟩
  exact .of_partitions partitions_timeout hcounters.1 hcounters.2

theorem balances_refused (d : Discovery) (i : Interest) : Balances d (d.refused i) := by
  have hcounters : (d.refused i).metrics.taken = d.metrics.taken ∧
      (d.refused i).metrics.splits = d.metrics.splits := by
    rw [refused]
    dsimp only
    split <;> exact ⟨rfl, rfl⟩
  exact .of_partitions (partitions_refused d) hcounters.1 hcounters.2

theorem balances_settled (d : Discovery) (i : Interest) : Balances d (d.settled i).1 := by
  have hcounters : (d.settled i).1.metrics.taken = d.metrics.taken ∧
      (d.settled i).1.metrics.splits = d.metrics.splits := by
    simp only [settled]
    split
    · exact ⟨rfl, rfl⟩
    · split <;> exact ⟨rfl, rfl⟩
  exact .of_partitions (partitions_settled d) hcounters.1 hcounters.2

theorem Move.balances (m : Move) (h : d.Sound) : Balances d (m.apply d) := by
  cases m with
  | start now => exact balances_start d now
  | stop => exact balances_stop d
  | refresh now => exact balances_refresh d now
  | timeout now i => exact balances_timeout d now i
  | arrive now c i => exact balances_arrive h
  | refused i => exact balances_refused d i
  | settled i => exact balances_settled d i
  | cancelled => exact ⟨rfl, rfl⟩

def after (d : Discovery) (moves : List Move) : Discovery := moves.foldl (fun d m => m.apply d) d

theorem after_concat (d : Discovery) (moves : List Move) (m : Move) :
    d.after (moves ++ [m]) = m.apply (d.after moves) := by
  simp [after]

theorem Sound.balances_after (h : d.Sound) (moves : List Move) :
    (d.after moves).Sound ∧ Balances d (d.after moves) := by
  induction moves using List.reverseRecOn with
  | nil => exact ⟨h, .refl d⟩
  | append_singleton moves m ih =>
    obtain ⟨hsound, hbalances⟩ := ih
    rw [after_concat]
    exact ⟨m.sound hsound, hbalances.trans (m.balances hsound)⟩

section Created

variable (basename : Name) {config : Config} (trust : Trust) {exclusions : List Version}
  (floor : Option Version)

theorem exclusionCount_create :
    (create basename config trust exclusions floor).exclusionCount = exclusions.dedup.length := by
  have hsorted := SortedList.pairwise_ofList exclusions
  have hdistinct : (SortedList.ofList exclusions).Nodup := by
    refine hsorted.imp fun hlt heq => ?_
    rw [heq, Version.lt_iff] at hlt
    exact Nat.lt_irrefl _ hlt
  have hperm : (SortedList.ofList exclusions).Perm exclusions.dedup := by
    refine (List.perm_ext_iff_of_nodup hdistinct exclusions.nodup_dedup).2 fun v => ?_
    rw [SortedList.mem_ofList, List.mem_dedup]
  rw [exclusionCount_eq, ← hperm.length_eq]
  simp only [Discovery.exclusions, create, List.map_map, Function.comp_def, List.map_id',
    Partition.cover_excluded]

/-- What the counters of a discovery say of the exclusions it was given and the partitions it
began with. -/
structure Accounted (exclusions : List Version) (partitions : Nat) (d : Discovery) : Prop where
  exclusionCount : d.exclusionCount =
    exclusions.dedup.length + d.metrics.delivered + d.metrics.belowFloor
  partitionCount : d.partitionCount = partitions + d.metrics.splits

theorem Balances.accounted
    (h : Balances (create basename config trust exclusions floor) d) :
    Accounted exclusions (create basename config trust exclusions floor).partitionCount d := by
  have hcreate : (create basename config trust exclusions floor).exclusionCount =
      exclusions.dedup.length := exclusionCount_create basename trust floor
  have htaken : (create basename config trust exclusions floor).metrics.taken = 0 := rfl
  have hsplits : (create basename config trust exclusions floor).metrics.splits = 0 := rfl
  obtain ⟨hexclusions, hpartitions⟩ := h
  rw [hcreate, htaken, Metrics.taken] at hexclusions
  rw [hsplits] at hpartitions
  exact ⟨by omega, by omega⟩

end Created

end Discovery

namespace Session

variable {P : Command → Prop} {start s : Session} {k : Nat} {r : Retrieval}

open Discovery (Move)

theorem Course.exists_moves (h : Course P start s) (hr : start.retrievals[k]? = some r) :
    ∃ r' moves, s.retrievals[k]? = some r' ∧ r'.discovery = r.discovery.after moves := by
  refine h.keeps (K := fun s => ∃ r' moves, s.retrievals[k]? = some r' ∧
    r'.discovery = r.discovery.after moves) ⟨r, [], hr, rfl⟩ (fun hmoved _ _ => hmoved) ?_
  rintro s ⟨r', moves, hr', hmoved⟩
  cases hagenda : s.agenda with
  | nil =>
    rw [step_of_nil hagenda]
    exact ⟨r', moves, hr', hmoved⟩
  | cons task rest =>
    obtain ⟨r'', hr'', hmoves⟩ := (step_executed hagenda).moves hr'
    rcases hmoves.discovery with heq | ⟨m, hm⟩
    · exact ⟨r'', moves, hr'', heq.trans hmoved⟩
    · refine ⟨r'', moves ++ [m], hr'', ?_⟩
      rw [hm, hmoved, Discovery.after_concat]

end Session

open Session in
/-- Whatever happens to a discovery, in itself or in a session among any calls, answers and
refusals: its exclusions are those it was given, each counted once, and the versions counted since,
and its partitions those it began with and one for each split. -/
theorem Discovery.counters_balance (basename : Name) {config : Config} (trust : Trust)
    {exclusions : List Version} (floor : Option Version) (hvalid : config.Valid)
    (hrange : ∀ v ∈ exclusions, v.InRange) :
    (∀ moves, Accounted exclusions (create basename config trust exclusions floor).partitionCount
      ((create basename config trust exclusions floor).after moves)) ∧
    ∀ (start s : Session) (k : Nat) (r : Retrieval), start.retrievals[k]? = some r →
      r.discovery = create basename config trust exclusions floor →
      Course (fun _ => True) start s → ∃ r', s.retrievals[k]? = some r' ∧
        Accounted exclusions (create basename config trust exclusions floor).partitionCount
          r'.discovery := by
  have hmoves : ∀ moves, Accounted exclusions
      (create basename config trust exclusions floor).partitionCount
      ((create basename config trust exclusions floor).after moves) := fun moves =>
    ((create_sound hvalid hrange).balances_after moves).2.accounted
  refine ⟨hmoves, fun start s k r hr hdiscovery hcourse => ?_⟩
  obtain ⟨r', moves, hr', hmoved⟩ := hcourse.exists_moves hr
  rw [hdiscovery] at hmoved
  exact ⟨r', hr', hmoved ▸ hmoves moves⟩

namespace Discovery

def sampleCounting : Discovery :=
  create ⟨[[1]]⟩ { maxExcludes := 2 } .exactKey [⟨5⟩, ⟨9⟩, ⟨5⟩] (some ⟨7⟩)

def sampleCounted : List Move :=
  [.start 0, sampleArrival 3, sampleArrival 8, sampleArrival 8, sampleArrival 7]

def sampleCountingSession : Session :=
  .opening sampleCounting "o" [] { store := [Session.sampleContent 12], refusals := 1 } id

theorem counters_balance_sample :
    Accounted [⟨5⟩, ⟨9⟩, ⟨5⟩] 2 (sampleCounting.after sampleCounted) ∧
    (sampleCounting.after sampleCounted).exclusionCount = 5 ∧
    (sampleCounting.after sampleCounted).partitionCount = 4 ∧
    (sampleCountingSession.give 5 (.startDiscovery .first)).agenda ≠ [] ∧
    ∃ r, (sampleCountingSession.give 5 (.startDiscovery .first)).retrievals[0]? = some r ∧
      r.discovery.metrics.refused = 1 ∧ r.discovery.exclusionCount = 3 ∧
      Accounted [⟨5⟩, ⟨9⟩, ⟨5⟩] 2 r.discovery := by
  obtain ⟨hmoves, hsessions⟩ := @counters_balance ⟨[[1]]⟩ { maxExcludes := 2 } .exactKey
    [⟨5⟩, ⟨9⟩, ⟨5⟩] (some ⟨7⟩) rfl (by decide)
  have hinitial : sampleCounting.partitionCount = 2 := by cbv
  have hcourse : Session.Course (fun _ => True) sampleCountingSession
      (sampleCountingSession.give 5 (.startDiscovery .first)) :=
    Session.Course.start.give rfl True.intro 5
  obtain ⟨r, hr, haccounted⟩ := hsessions sampleCountingSession _ 0 _ rfl rfl hcourse
  have hcounts : ((sampleCountingSession.give 5 (.startDiscovery .first)).retrievals[0]?).map
      (fun r => (r.discovery.metrics.refused, r.discovery.exclusionCount)) = some (1, 3) := by cbv
  rw [hr, Option.map_some, Option.some.injEq, Prod.mk.injEq] at hcounts
  refine ⟨hinitial ▸ hmoves sampleCounted, by cbv, by cbv, ?_, r, hr, hcounts.1, hcounts.2,
    hinitial ▸ haccounted⟩
  have hopen : (sampleCountingSession.give 5 (.startDiscovery .first)).agenda.length = 5 := by cbv
  exact List.ne_nil_of_length_pos (by omega)

end Discovery

end NamedContent
