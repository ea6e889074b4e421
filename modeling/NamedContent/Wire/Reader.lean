import NamedContent.Interest

/-!
Readers of the wire form. A reader takes bytes from the front of its input, and what it has taken
stays taken when it fails. No reader lengthens its input, and one that shortens it whenever it
succeeds may be repeated.
-/

namespace NamedContent.Wire

inductive WireFault where
  | truncated (part : String)
  | unexpectedTag (expected : String) (found : UInt8)
  | missingName
  | forbidden (fault : InterestFault)
  | integerOverflow (element : String) (length : Nat)
  | publisherLength (found : Nat)
  | exclude (fault : ExcludeFault)
  /-- A length prefix too large for 64 bits, with what was read of it. -/
  | invalidLength (value : Nat)
  | trailing (count : Nat)
  deriving DecidableEq

def WireFault.message : WireFault → String
  | .truncated part => "Input truncated while reading " ++ part
  | .unexpectedTag expected found =>
    "Unexpected tag 0x" ++ Bytes.toHex [found] ++ ", expected " ++ expected
  | .missingName => "Interest element has no Name"
  | .forbidden fault => "Cannot encode Interest: " ++ fault.field ++ " " ++ fault.reason
  | .integerOverflow element length =>
    "Integer element " ++ element ++ " does not fit: " ++ toString length ++ " bytes"
  | .publisherLength found => "Publisher id must be 32 bytes, got " ++ toString found
  | .exclude fault => "Invalid exclude filter: " ++ fault.message
  | .invalidLength value => "Length prefix overflows: " ++ toString value
  | .trailing count => toString count ++ " bytes left after the closing marker"

def Reader (α : Type) : Type := Bytes → Except WireFault α × Bytes

namespace Reader

variable {α β : Type}

def pure (a : α) : Reader α := fun s => (.ok a, s)

def fail (fault : WireFault) : Reader α := fun s => (.error fault, s)

def bind (r : Reader α) (f : α → Reader β) : Reader β := fun s =>
  match r s with
  | (.ok a, rest) => f a rest
  | (.error fault, rest) => (.error fault, rest)

instance : Monad Reader where
  pure := pure
  bind := bind

def peek : Reader (Option UInt8) := fun s => (.ok s.head?, s)

def skipAll : Reader Nat := fun s => (.ok s.length, [])

def NoLonger (r : Reader α) : Prop := ∀ s, (r s).2.length ≤ s.length

def Shortens (r : Reader α) : Prop :=
  ∀ s a rest, r s = (.ok a, rest) → rest.length < s.length

theorem noLonger_pure (a : α) : NoLonger (Pure.pure a : Reader α) := fun _ => Nat.le_refl _

theorem noLonger_fail (fault : WireFault) : NoLonger (fail fault : Reader α) :=
  fun _ => Nat.le_refl _

theorem NoLonger.bind {r : Reader α} {f : α → Reader β} (hr : NoLonger r)
    (hf : ∀ a, NoLonger (f a)) : NoLonger (r >>= f) := by
  intro s
  have h := hr s
  show (Reader.bind r f s).2.length ≤ s.length
  unfold Reader.bind
  split
  · rename_i a rest hs
    rw [hs] at h
    exact Nat.le_trans (hf a rest) h
  · rename_i fault rest hs
    rw [hs] at h
    exact h

theorem Shortens.bind {r : Reader α} {f : α → Reader β} (hr : Shortens r)
    (hf : ∀ a, NoLonger (f a)) : Shortens (r >>= f) := by
  intro s b rest h
  change Reader.bind r f s = (.ok b, rest) at h
  unfold Reader.bind at h
  split at h
  · rename_i a mid hs
    have := hf a mid
    rw [h] at this
    exact Nat.lt_of_le_of_lt this (hr s a mid hs)
  · simp at h

/-- Repeats what `next` names for the byte ahead, until it names nothing. -/
def many (next : UInt8 → Option (Reader α)) (short : ∀ t r, next t = some r → Shortens r)
    (s : Bytes) : Except WireFault (List α) × Bytes :=
  match s with
  | [] => (.ok [], [])
  | t :: tail =>
    match hn : next t with
    | none => (.ok [], t :: tail)
    | some r =>
      match hr : r (t :: tail) with
      | (.error fault, rest) => (.error fault, rest)
      | (.ok a, rest) =>
        have : rest.length < (t :: tail).length := short t r hn _ a rest hr
        match many next short rest with
        | (.ok as, rest) => (.ok (a :: as), rest)
        | (.error fault, rest) => (.error fault, rest)
termination_by s.length
decreasing_by exact this

def whole (r : Reader α) (s : Bytes) : Except WireFault α :=
  match r s with
  | (.error fault, _) => .error fault
  | (.ok a, []) => .ok a
  | (.ok _, rest) => .error (.trailing rest.length)

end Reader

end NamedContent.Wire
