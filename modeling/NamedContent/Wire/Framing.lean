import NamedContent.Wire.Tag
import NamedContent.Wire.Reader

/-!
Framing: a leaf is a tag, the length of its payload and the payload; a composite is a tag, its
children and a closing byte. Lengths are written seven bits to a byte, lowest first, with the
high bit on every byte but the last. Integers are the shortest big-endian payload.
-/

namespace NamedContent.Wire

def varint (n : Nat) : Bytes :=
  if n < 128 then [UInt8.ofNat n] else UInt8.ofNat (n % 128 + 128) :: varint (n / 128)
termination_by n
decreasing_by omega

def leaf (tag : UInt8) (payload : Bytes) : Bytes :=
  tag :: varint payload.length ++ payload

def integer (tag : UInt8) (value : Nat) : Bytes := leaf tag (Bytes.bigEndian value)

def composite (tag : UInt8) (children : Bytes) : Bytes := tag :: children ++ [Tag.close]

/-- A length prefix has this many bytes at most, which hold 70 bits; the last may add one. -/
def maxVarintLength : Nat := 10

def maxIntegerLength : Nat := 8

namespace Reader

def byte (part : String) : Reader UInt8
  | [] => (.error (.truncated part), [])
  | b :: rest => (.ok b, rest)

def tag (expected : String) (t : UInt8) : Reader Unit := do
  let found ← byte expected
  if found = t then return () else fail (.unexpectedTag expected found)

def close (part : String) : Reader Unit := tag part Tag.close

/-- The rest of a length prefix of which `value` has been read and `left` bytes may follow. -/
def varintFrom (part : String) : (left shift value : Nat) → Reader Nat
  | 0, _, value => fail (.invalidLength value)
  | left + 1, shift, value => do
    let b ← byte part
    let bits := b.toNat % 128
    if left = 0 ∧ 1 < bits then fail (.invalidLength value)
    else
      let value := value + bits * 2 ^ shift
      if b.toNat < 128 then return value else varintFrom part left (shift + 7) value

def varint (part : String) : Reader Nat := varintFrom part maxVarintLength 0 0

def bytes (part : String) (n : Nat) : Reader Bytes := fun s =>
  let taken := s.take n
  if taken.length < n then (.error (.truncated part), s) else (.ok taken, s.drop n)

def payload (part : String) : Reader Bytes := do
  let n ← varint part
  bytes part n

def leaf (t : UInt8) (expected : String) : Reader Bytes := do
  tag expected t
  payload expected

def integer (t : UInt8) (element : String) : Reader Nat := do
  let digits ← leaf t element
  if maxIntegerLength < digits.length then fail (.integerOverflow element digits.length)
  else return Bytes.ofBigEndian digits

/-- An integer of 32 bits; one that is too large is refused by the length of its shortest form. -/
def integer32 (t : UInt8) (element : String) : Reader UInt32 := do
  let value ← integer t element
  if value < UInt32.size then return UInt32.ofNat value
  else fail (.integerOverflow element (Bytes.bigEndian value).length)

def integer64 (t : UInt8) (element : String) : Reader UInt64 := do
  let value ← integer t element
  return UInt64.ofNat value

def skipLeaf (part : String) : Reader UInt8 := do
  let t ← byte part
  let _ ← payload part
  return t

theorem noLonger_byte (part : String) : NoLonger (byte part) := by
  intro s
  cases s <;> simp [byte]

theorem shortens_byte (part : String) : Shortens (byte part) := by
  intro s b rest h
  cases s with
  | nil => simp [byte] at h
  | cons c tail =>
    obtain ⟨_, rfl⟩ := Prod.mk.inj h
    simp

theorem shortens_tag (expected : String) (t : UInt8) : Shortens (tag expected t) :=
  (shortens_byte expected).bind fun found => by
    split
    · exact noLonger_pure ()
    · exact noLonger_fail _

theorem noLonger_varintFrom (part : String) (left shift value : Nat) :
    NoLonger (varintFrom part left shift value) := by
  induction left generalizing shift value with
  | zero => exact noLonger_fail _
  | succ left ih =>
    refine (noLonger_byte part).bind fun b => ?_
    dsimp only
    split
    · exact noLonger_fail _
    · split
      · exact noLonger_pure _
      · exact ih _ _

theorem noLonger_bytes (part : String) (n : Nat) : NoLonger (bytes part n) := by
  intro s
  unfold bytes
  dsimp only
  split <;> simp

theorem noLonger_payload (part : String) : NoLonger (payload part) :=
  (noLonger_varintFrom part _ _ _).bind fun n => noLonger_bytes part n

theorem shortens_leaf (t : UInt8) (expected : String) : Shortens (leaf t expected) :=
  (shortens_tag expected t).bind fun _ => noLonger_payload expected

theorem shortens_skipLeaf (part : String) : Shortens (skipLeaf part) :=
  (shortens_byte part).bind fun t => (noLonger_payload part).bind fun _ => noLonger_pure t

end Reader

end NamedContent.Wire
