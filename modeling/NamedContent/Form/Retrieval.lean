import NamedContent.Discovery
import NamedContent.Form

/-!
The forms of versions, configurations and counters. Neither a version nor a configuration is
checked when it is read.
-/

namespace NamedContent.Form

instance : Form Version where
  toForm v := toForm v.ticks
  ofForm? v := Version.mk <$> ofForm? v

/-- Nanoseconds beyond a second are carried into the seconds, which must still fit. -/
def duration? (secs : UInt64) (nanos : UInt32) : Option Duration :=
  let d := Duration.ofParts secs.toNat nanos.toNat
  if d.wholeSeconds < UInt64.size then some d else none

def durationFields : List String := ["secs", "nanos"]

def onlyFields (names : List String) : Value → Bool
  | .record fields => fields.all fun field => names.contains field.1
  | _ => true

instance : Form Duration where
  toForm d := .record [("secs", ofNat d.wholeSeconds), ("nanos", ofNat d.restNanos)]
  ofForm? v :=
    if onlyFields durationFields v then
      match fields? durationFields v with
      | some [secs, nanos] => do
        let secs ← required secs
        let nanos ← required nanos
        duration? secs nanos
      | _ => none
    else none

instance : Form Config where
  toForm c := .record [("interest_lifetime", toForm c.lifetime),
    ("max_excludes_per_interest", toForm c.maxExcludes),
    ("additional_name_components", toForm c.additional),
    ("refresh_interval", toForm c.refreshInterval)]
  ofForm? v :=
    match fields? ["interest_lifetime", "max_excludes_per_interest", "additional_name_components",
        "refresh_interval"] v with
    | some [lifetime, maxExcludes, additional, refreshInterval] => do
      let lifetime ← required lifetime
      let maxExcludes ← required maxExcludes
      let additional ← optional additional
      let refreshInterval ← required refreshInterval
      return { lifetime, maxExcludes, additional, refreshInterval }
    | _ => none

def counterFields : List String :=
  ["interests_expressed", "interests_cancelled", "express_failures", "versions_delivered",
    "duplicates_suppressed", "below_floor", "partition_splits", "timeouts"]

instance : Form Metrics where
  toForm m := .record (counterFields.zip ([m.expressed, m.cancelled, m.refused, m.delivered,
    m.duplicates, m.belowFloor, m.splits, m.timeouts].map toForm))
  ofForm? v := do
    let counters ← fields? counterFields v
    let counts : List Nat ← counters.mapM required
    match counts with
    | [expressed, cancelled, refused, delivered, duplicates, belowFloor, splits, timeouts] =>
      return { expressed, cancelled, refused, delivered, duplicates, belowFloor, splits, timeouts }
    | _ => none

end NamedContent.Form
