/-!
Byte strings: their hexadecimal text, and numbers written big-endian.
Byte strings are ordered as lists of bytes, so a proper beginning sorts first.
-/

namespace NamedContent

abbrev Bytes := List UInt8

namespace Bytes

def lowerHexDigit (n : Nat) : Char :=
  if n < 10 then Char.ofNat (n + 48) else Char.ofNat (n + 87)

def upperHexDigit (n : Nat) : Char :=
  if n < 10 then Char.ofNat (n + 48) else Char.ofNat (n + 55)

def hexValue? (c : Char) : Option Nat :=
  let n := c.toNat
  if 48 ≤ n ∧ n ≤ 57 then some (n - 48)
  else if 97 ≤ n ∧ n ≤ 102 then some (n - 87)
  else if 65 ≤ n ∧ n ≤ 70 then some (n - 55)
  else none

def hexChars (bytes : Bytes) : List Char :=
  bytes.flatMap fun b => [lowerHexDigit (b.toNat / 16), lowerHexDigit (b.toNat % 16)]

def toHex (bytes : Bytes) : String :=
  String.ofList (hexChars bytes)

def ofHexChars? : List Char → Option Bytes
  | [] => some []
  | [_] => none
  | hi :: lo :: rest => do
    let h ← hexValue? hi
    let l ← hexValue? lo
    let bytes ← ofHexChars? rest
    return UInt8.ofNat (16 * h + l) :: bytes

def ofHex? (text : String) : Option Bytes :=
  ofHexChars? text.toList

theorem hexValue?_lowerHexDigit : ∀ n < 16, hexValue? (lowerHexDigit n) = some n := by
  decide

theorem ofHexChars?_hexChars (bytes : Bytes) : ofHexChars? (hexChars bytes) = some bytes := by
  induction bytes with
  | nil => rfl
  | cons b rest ih =>
    have hb := b.toNat_lt
    have hhi := hexValue?_lowerHexDigit (b.toNat / 16) (by omega)
    have hlo := hexValue?_lowerHexDigit (b.toNat % 16) (by omega)
    have hval : UInt8.ofNat (16 * (b.toNat / 16) + b.toNat % 16) = b := by
      rw [Nat.div_add_mod]
      simp
    rw [hexChars] at ih
    simp only [hexChars, List.flatMap_cons, List.cons_append, List.nil_append, ofHexChars?,
      hhi, hlo, ih, hval, Option.bind_eq_bind, Option.bind_some, Option.pure_def]

def ofBigEndian (bytes : Bytes) : Nat :=
  bytes.foldl (fun acc b => 256 * acc + b.toNat) 0

/-- The shortest big-endian form; zero is the empty string. -/
def bigEndian (n : Nat) : Bytes :=
  if n = 0 then [] else bigEndian (n / 256) ++ [UInt8.ofNat n]
termination_by n
decreasing_by omega

def bigEndianOf : (width n : Nat) → Bytes
  | 0, _ => []
  | width + 1, n => bigEndianOf width (n / 256) ++ [UInt8.ofNat n]

@[simp] theorem length_bigEndianOf (width n : Nat) : (bigEndianOf width n).length = width := by
  induction width generalizing n with
  | zero => rfl
  | succ width ih => simp [bigEndianOf, ih]

def order : Bytes → Bytes → Ordering
  | [], [] => .eq
  | [], _ :: _ => .lt
  | _ :: _, [] => .gt
  | a :: as, b :: bs => if a < b then .lt else if b < a then .gt else order as bs

theorem order_eq_eq_iff {as bs : Bytes} : order as bs = .eq ↔ as = bs := by
  fun_induction order as bs with
  | case1 => simp
  | case2 => simp
  | case3 => simp
  | case4 a as b bs hlt => simp [UInt8.ne_of_lt hlt]
  | case5 a as b bs _ hgt => simp [(UInt8.ne_of_lt hgt).symm]
  | case6 a as b bs hlt hgt ih =>
    obtain rfl : a = b := UInt8.le_antisymm (UInt8.not_lt.1 hgt) (UInt8.not_lt.1 hlt)
    simp [ih]

theorem order_eq_lt_iff {as bs : Bytes} : order as bs = .lt ↔ as < bs := by
  fun_induction order as bs with
  | case1 => simp
  | case2 => simp
  | case3 => simp
  | case4 a as b bs hlt => simp [List.cons_lt_cons_iff, hlt]
  | case5 a as b bs hlt hgt => simp [List.cons_lt_cons_iff, hlt, (UInt8.ne_of_lt hgt).symm]
  | case6 a as b bs hlt hgt ih =>
    obtain rfl : a = b := UInt8.le_antisymm (UInt8.not_lt.1 hgt) (UInt8.not_lt.1 hlt)
    simp [ih]

end Bytes

end NamedContent
