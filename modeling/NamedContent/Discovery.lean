import NamedContent.Interest.Match
import NamedContent.Partition

/-!
The discovery of all versions under one base name. While it runs it keeps one Interest expressed
for each partition of the version space. An arrival is decoded to a version; a new one is
excluded from now on, handed over unless it lies below the floor, and the partitions touched are
expressed anew with their grown filters. An arrival whose component after the base name is no
version is excluded as a stray of the partition that asked; one without such a component leaves
its partition idle until the next refresh.

Every event answers the discovery as it is afterwards together with the actions that the
transport is now to be asked for. Running those is left to the caller, who reports back how each
went.
-/

namespace NamedContent

inductive Phase where
  | created
  | running
  | stopped
  deriving DecidableEq

structure Metrics where
  expressed : Nat := 0
  cancelled : Nat := 0
  refused : Nat := 0
  delivered : Nat := 0
  duplicates : Nat := 0
  belowFloor : Nat := 0
  splits : Nat := 0
  timeouts : Nat := 0
  deriving DecidableEq

inductive Action where
  | express (i : Interest)
  | cancel (i : Interest)
  deriving DecidableEq

def Action.isExpress : Action → Bool
  | .express _ => true
  | .cancel _ => false

/-- Nanoseconds since the start of the clock. -/
abbrev Time := Nat

structure Slot where
  partition : Partition
  outstanding : Option Interest := none
  expressedAt : Option Time := none
  deriving DecidableEq

namespace Slot

def clear (s : Slot) : Slot := { s with outstanding := none, expressedAt := none }

def exclude (stray : Component) (s : Slot) : Slot :=
  { s with partition := s.partition.insertStray stray }

def awaits (s : Slot) (i : Interest) : Bool := s.outstanding == some i

def reissue (basename : Name) (config : Config) (now : Time) (s : Slot) : Slot × List Action :=
  match s.partition.interest basename config with
  | .ok i => ({ s with outstanding := some i, expressedAt := some now }, [.express i])
  | .error _ => (s.clear, [])

def withdrawal (s : Slot) : List Action :=
  match s.outstanding with
  | some i => [.cancel i]
  | none => []

/-- Nothing is outstanding, or what is has lapsed. -/
def isDue (lifetime : Duration) (now : Time) (s : Slot) : Bool :=
  s.outstanding.isNone ||
    match s.expressedAt with
    | some since => decide (lifetime.nanos ≤ now - since)
    | none => true

def refresh (basename : Name) (config : Config) (now : Time) (s : Slot) : Slot × List Action :=
  if s.isDue config.lifetime now then
    let (fresh, actions) := s.reissue basename config now
    (fresh, s.withdrawal ++ actions)
  else (s, [])

end Slot

structure Discovery where
  basename : Name
  config : Config
  trust : Trust
  /-- Versions below this are excluded on arrival but not handed over. -/
  floor : Option Version
  phase : Phase
  /-- Ordered by their partitions, which tile the version space. -/
  slots : List Slot
  metrics : Metrics

namespace Discovery

/-- A discovery not yet started, which never hands over one of `exclusions`. -/
def create (basename : Name) (config : Config) (trust : Trust) (exclusions : List Version)
    (floor : Option Version) : Discovery :=
  let partitions := Partition.cover (SortedList.ofList exclusions) config.maxExcludes
  { basename, config, trust, floor, phase := .created, metrics := {}
    slots := partitions.map fun partition => { partition } }

def isRunning (d : Discovery) : Bool := d.phase == .running

def partitionCount (d : Discovery) : Nat := d.slots.length

def exclusionCount (d : Discovery) : Nat :=
  d.slots.foldr (fun s n => s.partition.excluded.length + n) 0

def strayCount (d : Discovery) : Nat :=
  d.slots.foldr (fun s n => s.partition.strays.length + n) 0

def outstanding (d : Discovery) : List Interest := d.slots.filterMap (·.outstanding)

def isExcluded (d : Discovery) (v : Version) : Bool :=
  d.slots.any fun s => s.partition.covers v && s.partition.isExcluded v

def eachSlot (f : Slot → Slot × List Action) (d : Discovery) : Discovery × List Action :=
  let results := d.slots.map f
  ({ d with slots := results.map (·.1) }, results.flatMap (·.2))

def atSlot (k : Nat) (f : Slot → Slot × List Action) (d : Discovery) : Discovery × List Action :=
  match d.slots[k]? with
  | none => (d, [])
  | some s =>
    let (s, actions) := f s
    ({ d with slots := d.slots.set k s }, actions)

def reissueAt (k : Nat) (now : Time) (d : Discovery) : Discovery × List Action :=
  d.atSlot k (Slot.reissue d.basename d.config now)

/-- Expresses one Interest for each partition; only a discovery just created starts. -/
def start (d : Discovery) (now : Time) : Discovery × List Action :=
  if d.phase = .created then
    { d with phase := .running }.eachSlot (Slot.reissue d.basename d.config now)
  else (d, [])

def stop (d : Discovery) : Discovery × List Action :=
  if d.phase = .stopped then (d, [])
  else { d with phase := .stopped }.eachSlot fun s => (s.clear, s.withdrawal)

/-- Expresses anew what has lapsed or never was expressed. -/
def refresh (d : Discovery) (now : Time) : Discovery × List Action :=
  if d.isRunning then d.eachSlot (Slot.refresh d.basename d.config now) else (d, [])

def slotAwaiting? (d : Discovery) (i : Interest) : Option Nat := d.slots.findIdx? (·.awaits i)

def slotCovering? (d : Discovery) (v : Version) : Option Nat :=
  d.slots.findIdx? (·.partition.covers v)

def timeout (d : Discovery) (now : Time) (i : Interest) : Discovery × List Action :=
  if d.isRunning then
    match d.slotAwaiting? i with
    | none => (d, [])
    | some k =>
      { d with metrics.timeouts := d.metrics.timeouts + 1 }.reissueAt k now
  else (d, [])

/-- Replaces the slot at `k` by the halves of its partition, both expressed. -/
def splitAt (k : Nat) (now : Time) (d : Discovery) : Discovery × List Action :=
  match d.slots[k]? with
  | none => (d, [])
  | some s =>
    match s.partition.split? with
    | none => { d with slots := d.slots.set k { partition := s.partition } }.reissueAt k now
    | some (left, right) =>
      let (l, lActions) := Slot.reissue d.basename d.config now { partition := left }
      let (r, rActions) := Slot.reissue d.basename d.config now { partition := right }
      ({ d with
          slots := d.slots.take k ++ l :: r :: d.slots.drop (k + 1)
          metrics.splits := d.metrics.splits + 1 }, lActions ++ rActions)

/-- Expresses the slot at `k` anew after its filter has grown. -/
def replaceAt (k : Nat) (now : Time) (d : Discovery) : Discovery × List Action :=
  match d.slots[k]? with
  | none => (d, [])
  | some s =>
    let (d, actions) :=
      if s.partition.needsSplit d.config.maxExcludes then d.splitAt k now else d.reissueAt k now
    (d, s.withdrawal ++ actions)

structure Absorbed where
  discovery : Discovery
  actions : List Action := []
  delivers : Bool := false

def ignore (d : Discovery) (now : Time) (asked : Option Nat) : Absorbed :=
  match asked with
  | none => { discovery := d }
  | some k =>
    let (discovery, actions) := d.reissueAt k now
    { discovery, actions }

def recordVersion (d : Discovery) (v : Version) : Discovery × Bool :=
  match d.floor with
  | some floor =>
    if v < floor then ({ d with metrics.belowFloor := d.metrics.belowFloor + 1 }, false)
    else ({ d with metrics.delivered := d.metrics.delivered + 1 }, true)
  | none => ({ d with metrics.delivered := d.metrics.delivered + 1 }, true)

/-- Takes in a version that the slot at `target` covers, asked for by the slot at `asked`. -/
def absorbVersion (d : Discovery) (now : Time) (asked : Option Nat) (target : Nat) (s : Slot)
    (v : Version) : Absorbed :=
  if s.partition.isExcluded v then
    { d with metrics.duplicates := d.metrics.duplicates + 1 }.ignore now asked
  else
    let s := { s with partition := s.partition.insert v }
    let grown := { d with slots := d.slots.set target s }
    let (counted, delivers) := grown.recordVersion v
    let other := if asked = some target then none else asked
    let first := counted.ignore now other
    let (discovery, actions) := first.discovery.replaceAt target now
    { discovery, actions := first.actions ++ actions, delivers }

/-- Folds an arrival into the partitions. The Interest that it answers is no longer outstanding,
whatever the arrival holds. -/
def absorb (d : Discovery) (now : Time) (c : Content) (i : Interest) : Absorbed :=
  let asked := d.slotAwaiting? i
  let d := match asked with
    | some k => { d with slots := d.slots.modify k Slot.clear }
    | none => d
  if !i.accepts d.trust c then d.ignore now asked
  else
    match Version.ofNameAt c.name d.basename.length with
    | .error (.missingComponent _) => { discovery := d }
    | .error _ =>
      let d := match asked, c.name.component? d.basename.length with
        | some k, some stray =>
          { d with slots := d.slots.modify k (·.exclude stray) }
        | _, _ => d
      d.ignore now asked
    | .ok v =>
      match d.slotCovering? v with
      | none => d.ignore now asked
      | some target =>
        match d.slots[target]? with
        | none => d.ignore now asked
        | some s => d.absorbVersion now asked target s v

def arrive (d : Discovery) (now : Time) (c : Content) (i : Interest) : Absorbed :=
  if d.isRunning then d.absorb now c i else { discovery := d }

/-- The transport has refused `i`: its slot is due at the next refresh. -/
def refused (d : Discovery) (i : Interest) : Discovery :=
  let d := { d with metrics.refused := d.metrics.refused + 1 }
  match d.slotAwaiting? i with
  | some k => { d with slots := d.slots.modify k Slot.clear }
  | none => d

def cancelled (d : Discovery) : Discovery :=
  { d with metrics.cancelled := d.metrics.cancelled + 1 }

/-- What is to become of an Interest that the transport has accepted. -/
inductive Settlement where
  | keep
  | withdraw
  /-- It was answered or replaced meanwhile; its withdrawal is not counted. -/
  | superseded
  deriving DecidableEq

def settled (d : Discovery) (i : Interest) : Discovery × Settlement :=
  let d := { d with metrics.expressed := d.metrics.expressed + 1 }
  if !d.isRunning then (d.cancelled, .withdraw)
  else if (d.slotAwaiting? i).isNone then (d, .superseded)
  else (d, .keep)

end Discovery

end NamedContent
