import NamedContent.Name

/-!
Version numbers: times in ticks of 1/4096 second, 48 bits of which have a component form, a
marker byte and six bytes big-endian. So the byte order of version components is the order of
versions. A version beyond 48 bits has no component of its own.
-/

namespace NamedContent

inductive VersionFault where
  | missingComponent (index : Nat)
  | notAVersion (marker : Option UInt8) (length : Nat)
  | outOfRange (ticks : UInt64)
  deriving DecidableEq

def VersionFault.message : VersionFault → String
  | .missingComponent i => "No component at index " ++ toString i
  | .notAVersion marker length =>
    let text := match marker with
      | some b => "Some(" ++ toString b.toNat ++ ")"
      | none => "None"
    "Component is not a version: marker " ++ text ++ ", " ++ toString length ++ " bytes"
  | .outOfRange ticks => "Version ticks " ++ toString ticks ++ " exceed the 48-bit range"

/-- A span of time in nanoseconds. -/
structure Duration where
  nanos : Nat
  deriving DecidableEq

namespace Duration

def nanosPerSecond : Nat := 1000000000

def ofSeconds (secs : Nat) : Duration := ⟨secs * nanosPerSecond⟩

def ofParts (secs nanos : Nat) : Duration := ⟨secs * nanosPerSecond + nanos⟩

def wholeSeconds (d : Duration) : Nat := d.nanos / nanosPerSecond

def restNanos (d : Duration) : Nat := d.nanos % nanosPerSecond

theorem ofParts_eq (d : Duration) : ofParts d.wholeSeconds d.restNanos = d := by
  simp only [ofParts, wholeSeconds, restNanos, Nat.div_add_mod']

def isZero (d : Duration) : Bool := d.nanos == 0

end Duration

structure Version where
  ticks : UInt64
  deriving DecidableEq

namespace Version

instance : LT Version := ⟨fun a b => a.ticks < b.ticks⟩
instance : LE Version := ⟨fun a b => a.ticks ≤ b.ticks⟩
instance : DecidableLT Version := fun a b => inferInstanceAs (Decidable (a.ticks < b.ticks))
instance : DecidableLE Version := fun a b => inferInstanceAs (Decidable (a.ticks ≤ b.ticks))

def marker : UInt8 := 0xFD

def componentLength : Nat := 7

def ticksPerSecond : Nat := 4096

def maxTicks : UInt64 := 0xFFFFFFFFFFFF

def first : Version := ⟨0⟩

def last : Version := ⟨maxTicks⟩

/-- The version has a component of its own. -/
def InRange (v : Version) : Prop := v ≤ last

instance (v : Version) : Decidable v.InRange := inferInstanceAs (Decidable (v ≤ last))

def ofTicks (ticks : UInt64) : Except VersionFault Version :=
  if maxTicks < ticks then .error (.outOfRange ticks) else .ok ⟨ticks⟩

def clamp (ticks : Nat) : Version := ⟨UInt64.ofNat (min ticks maxTicks.toNat)⟩

def ofMillis (millis : UInt64) : Version := clamp (millis.toNat * ticksPerSecond / 1000)

def ofDuration (sinceEpoch : Duration) : Version :=
  clamp (sinceEpoch.nanos * ticksPerSecond / Duration.nanosPerSecond)

def millis (v : Version) : UInt64 := v.ticks * 1000 / 4096

def next? (v : Version) : Option Version :=
  if v.ticks < maxTicks then some ⟨v.ticks + 1⟩ else none

def prev? (v : Version) : Option Version :=
  if v.ticks = 0 then none else some ⟨v.ticks - 1⟩

def toComponent (v : Version) : Component := marker :: Bytes.bigEndianOf 6 v.ticks.toNat

theorem length_toComponent (v : Version) : v.toComponent.length = componentLength := by
  simp [toComponent, componentLength]

def ofComponent (c : Component) : Except VersionFault Version :=
  match c with
  | m :: digits =>
    if m = marker ∧ digits.length = 6 then .ok ⟨UInt64.ofNat (Bytes.ofBigEndian digits)⟩
    else .error (.notAVersion (some m) c.length)
  | [] => .error (.notAVersion none 0)

def isComponent (c : Component) : Bool :=
  match ofComponent c with
  | .ok _ => true
  | .error _ => false

def ofNameAt (n : Name) (i : Nat) : Except VersionFault Version :=
  match n.component? i with
  | some c => ofComponent c
  | none => .error (.missingComponent i)

def appendTo (v : Version) (n : Name) : Name := n.append v.toComponent

def render (v : Version) : String := "v" ++ toString v.ticks

end Version

end NamedContent
