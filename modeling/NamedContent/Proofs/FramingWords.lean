import Mathlib.Data.Nat.Bitwise
import NamedContent.Proofs.CutForms

/-!
The framing on words of 64 bits. Length prefixes are masked, shifted and put together bit by bit,
integers byte by byte, and the bytes of an oversized integer are counted from its leading zeros.
All of it comes to what the framing does on numbers: what is shifted fits into the word, and the
bits that are put together do not overlap. The tenth byte of a length prefix is where that could
fail, and there all but its lowest bit are refused first.
-/

namespace NamedContent

namespace Bytes

def wordOf (bs : Bytes) : UInt64 := bs.foldl (fun acc b => acc <<< 8 ||| b.toUInt64) 0

theorem toNat_or_shiftLeft {low high : UInt64} {k : Nat} (hk : k < 64) (hlow : low.toNat < 2 ^ k)
    (hhigh : high.toNat * 2 ^ k < 2 ^ 64) :
    (low ||| high <<< UInt64.ofNat k).toNat = low.toNat + high.toNat * 2 ^ k := by
  have hshift : (UInt64.ofNat k).toNat % 64 = k := by
    rw [UInt64.toNat_ofNat']
    omega
  rw [UInt64.toNat_or, UInt64.toNat_shiftLeft, hshift, Nat.shiftLeft_eq, Nat.mod_eq_of_lt hhigh,
    Nat.or_comm, Nat.mul_comm, ← Nat.two_pow_add_eq_or_of_lt hlow, Nat.add_comm]

theorem toNat_wordOf {bs : Bytes} (h : bs.length ≤ 8) : (wordOf bs).toNat = ofBigEndian bs := by
  induction bs using List.reverseRecOn with
  | nil => rfl
  | append_singleton bs b ih =>
    have hb := b.toNat_lt
    rw [List.length_append, List.length_singleton] at h
    have hbs : ofBigEndian bs < 256 ^ 7 :=
      (ofBigEndian_lt bs).trans_le (Nat.pow_le_pow_right (by decide) (by omega))
    have hword : wordOf (bs ++ [b]) = b.toUInt64 ||| wordOf bs <<< UInt64.ofNat 8 := by
      rw [wordOf, List.foldl_append, UInt64.or_comm]
      rfl
    rw [hword, toNat_or_shiftLeft (by decide) (by simpa using hb) (by rw [ih (by omega)]; omega),
      ih (by omega), ofBigEndian_append, UInt8.toNat_toUInt64]
    omega

theorem bigEndian_zero : bigEndian 0 = [] := by
  rw [bigEndian, if_pos rfl]

theorem bigEndian_of_pos {n : Nat} (hn : 0 < n) :
    bigEndian n = bigEndian (n / 256) ++ [UInt8.ofNat n] := by
  rw [bigEndian, if_neg (Nat.ne_of_gt hn)]

theorem dropWhile_bigEndianOf {width n : Nat} (hn : n < 256 ^ width) :
    (bigEndianOf width n).dropWhile (· == 0) = bigEndian n := by
  induction width generalizing n with
  | zero =>
    obtain rfl : n = 0 := by simpa using hn
    rw [bigEndian_zero]
    rfl
  | succ width ih =>
    rw [Nat.pow_succ] at hn
    rw [bigEndianOf, List.dropWhile_append, ih (by omega)]
    rcases Nat.eq_zero_or_pos n with rfl | hpos
    · rw [bigEndian_zero]
      rfl
    · rw [bigEndian_of_pos hpos]
      rcases Nat.eq_zero_or_pos (n / 256) with hrest | hrest
      · have hlast : UInt8.ofNat n ≠ 0 := by
          rw [Ne, ← UInt8.toNat_inj, UInt8.toNat_ofNat', UInt8.toNat_zero]
          omega
        simp [hrest, bigEndian_zero, hlast]
      · simp [bigEndian_of_pos hrest]

theorem length_bigEndian_le_iff {k n : Nat} : (bigEndian n).length ≤ k ↔ n < 256 ^ k := by
  refine ⟨fun h => ?_, length_bigEndian_le⟩
  have hvalue := ofBigEndian_lt (bigEndian n)
  rw [ofBigEndian_bigEndian] at hvalue
  exact hvalue.trans_le (Nat.pow_le_pow_right (by decide) h)

theorem length_bigEndian_toNat (n : UInt64) :
    (bigEndian n.toNat).length = 8 - n.toBitVec.clz.toNat / 8 := by
  by_cases hn : n.toBitVec = 0
  · have hzero : n.toNat = 0 := by rw [← UInt64.toNat_toBitVec, hn]; rfl
    rw [hn, hzero, bigEndian_zero]
    decide
  · have hupper : n.toNat < 2 ^ (64 - n.toBitVec.clz.toNat) := BitVec.toNat_lt_two_pow_sub_clz
    have hlower : 2 ^ (63 - n.toBitVec.clz.toNat) ≤ n.toNat :=
      BitVec.two_pow_sub_clz_le_toNat_of_ne_zero (by decide) hn
    have hzeros : n.toBitVec.clz.toNat < 64 := BitVec.lt_def.1 (BitVec.clz_lt_iff_ne_zero.2 hn)
    have hwidth : ∀ k, 256 ^ k = 2 ^ (8 * k) := fun k => (Nat.pow_mul 2 8 k).symm
    generalize n.toBitVec.clz.toNat = zeros at hupper hlower hzeros
    apply Nat.le_antisymm
    · rw [length_bigEndian_le_iff, hwidth]
      exact hupper.trans_le (Nat.pow_le_pow_right (by decide) (by omega))
    · by_contra hshort
      have hfew : (bigEndian n.toNat).length ≤ 7 - zeros / 8 := by omega
      rw [length_bigEndian_le_iff, hwidth] at hfew
      have hle : 2 ^ (8 * (7 - zeros / 8)) ≤ 2 ^ (63 - zeros) :=
        Nat.pow_le_pow_right (by decide) (by omega)
      omega

end Bytes

namespace Wire

theorem toNat_shiftRight_seven (n : UInt64) : (n >>> 7).toNat = n.toNat / 128 := by
  rw [UInt64.toNat_shiftRight]
  exact Nat.shiftRight_eq_div_pow n.toNat 7

theorem toNat_low_seven (n : UInt64) : (n &&& 0x7f).toUInt8.toNat = n.toNat % 128 := by
  have hmask : (0x7f : UInt64).toNat = 2 ^ 7 - 1 := rfl
  rw [UInt64.toNat_toUInt8, UInt64.toNat_and, hmask, Nat.and_two_pow_sub_one_eq_mod]
  omega

def varintInWords (n : UInt64) : Bytes :=
  let digit := (n &&& 0x7f).toUInt8
  let rest := n >>> 7
  if rest = 0 then [digit] else (digit ||| 0x80) :: varintInWords rest
termination_by n.toNat
decreasing_by
  rename_i h
  have hrest : (n >>> 7).toNat ≠ 0 := fun hzero => h (UInt64.toNat_inj.1 hzero)
  rw [toNat_shiftRight_seven] at hrest ⊢
  omega

theorem toNat_or_continues {digit : UInt8} (h : digit.toNat < 128) :
    (digit ||| 0x80).toNat = digit.toNat + 128 := by
  have hbit : (0x80 : UInt8).toNat = 2 ^ 7 * 1 := rfl
  rw [UInt8.toNat_or, hbit, Nat.or_comm, ← Nat.two_pow_add_eq_or_of_lt h, Nat.add_comm]

theorem varintInWords_eq (n : UInt64) : varintInWords n = varint n.toNat := by
  fun_induction varintInWords n with
  | case1 n digit rest hrest =>
    have hlow : n.toNat / 128 = 0 := by
      rw [← toNat_shiftRight_seven]
      exact congrArg UInt64.toNat hrest
    have hdigit : digit = UInt8.ofNat n.toNat := by
      rw [← UInt8.toNat_inj, toNat_low_seven, UInt8.toNat_ofNat']
      omega
    rw [varint, if_pos (by omega), hdigit]
  | case2 n digit rest hrest ih =>
    have hhigh : n.toNat / 128 ≠ 0 := by
      rw [← toNat_shiftRight_seven]
      exact fun hzero => hrest (UInt64.toNat_inj.1 hzero)
    have hdigit : digit.toNat = n.toNat % 128 := toNat_low_seven n
    have hbyte : digit ||| 0x80 = UInt8.ofNat (n.toNat % 128 + 128) := by
      rw [← UInt8.toNat_inj, toNat_or_continues (by omega), hdigit, UInt8.toNat_ofNat']
      omega
    rw [varint, if_neg (by omega), hbyte, ih, toNat_shiftRight_seven]

def leafInWords (tag : UInt8) (payload : Bytes) : Bytes :=
  tag :: varintInWords (UInt64.ofNat payload.length) ++ payload

def integerInWords (tag : UInt8) (value : UInt64) : Bytes :=
  leafInWords tag ((Bytes.bigEndianOf 8 value.toNat).dropWhile (· == 0))

theorem leafInWords_eq (t : UInt8) {payload : Bytes} (h : payload.length < 2 ^ 64) :
    leafInWords t payload = leaf t payload := by
  have hlength : (UInt64.ofNat payload.length).toNat = payload.length := by
    rw [UInt64.toNat_ofNat']
    exact Nat.mod_eq_of_lt h
  rw [leafInWords, leaf, varintInWords_eq, hlength]

theorem integerInWords_eq (t : UInt8) (value : UInt64) :
    integerInWords t value = integer t value.toNat := by
  have hvalue : value.toNat < 256 ^ 8 := value.toNat_lt
  have hlength := Bytes.length_bigEndian_le hvalue
  rw [integerInWords, Bytes.dropWhile_bigEndianOf hvalue, leafInWords_eq t (by omega), integer]

namespace Reader

def varintInWordsFrom (part : String) : (left index : Nat) → UInt64 → Reader UInt64
  | 0, _, value => fail (.invalidLength value.toNat)
  | left + 1, index, value => do
    let b ← byte part
    let bits := (b &&& 0x7f).toUInt64
    if left = 0 ∧ 1 < bits then fail (.invalidLength value.toNat)
    else
      let value := value ||| bits <<< UInt64.ofNat (7 * index)
      if b &&& 0x80 = 0 then return value else varintInWordsFrom part left (index + 1) value

def varintInWords (part : String) : Reader UInt64 := varintInWordsFrom part maxVarintLength 0 0

def leafInWords (t : UInt8) (expected : String) : Reader Bytes := do
  tag expected t
  let n ← varintInWords expected
  bytes expected n.toNat

def integerInWords (t : UInt8) (element : String) : Reader UInt64 := do
  let digits ← leafInWords t element
  if maxIntegerLength < digits.length then fail (.integerOverflow element digits.length)
  else return Bytes.wordOf digits

def integer32InWords (t : UInt8) (element : String) : Reader UInt32 := do
  let value ← integerInWords t element
  if value.toNat < UInt32.size then return value.toUInt32
  else fail (.integerOverflow element (maxIntegerLength - value.toBitVec.clz.toNat / 8))

theorem bits_fit {bits index : Nat} (hbits : bits < 128) (hindex : index ≤ 9)
    (hlast : index = 9 → bits ≤ 1) : (bits + 1) * 2 ^ (7 * index) ≤ 2 ^ 64 := by
  rcases Nat.lt_or_eq_of_le hindex with hless | rfl
  · have hpow : 2 ^ (7 * index) ≤ 2 ^ 56 := Nat.pow_le_pow_right (by decide) (by omega)
    have := Nat.mul_le_mul (show bits + 1 ≤ 128 by omega) hpow
    omega
  · have := hlast rfl
    omega

theorem toNat_bits (b : UInt8) : (b &&& 0x7f).toUInt64.toNat = b.toNat % 128 := by
  have hmask : (0x7f : UInt8).toNat = 2 ^ 7 - 1 := rfl
  rw [UInt8.toNat_toUInt64, UInt8.toNat_and, hmask, Nat.and_two_pow_sub_one_eq_mod]

theorem ends_iff (b : UInt8) : b &&& 0x80 = 0 ↔ b.toNat < 128 := by
  have hmask : (0x80 : UInt8).toNat = 2 ^ 7 := rfl
  have hb := b.toNat_lt
  rw [← UInt8.toNat_inj, UInt8.toNat_and, hmask, Nat.and_two_pow,
    Nat.testBit_eq_decide_div_mod_eq, UInt8.toNat_zero]
  by_cases h : b.toNat < 128
  · rw [Nat.div_eq_of_lt h]
    simp [h]
  · rw [show b.toNat / 2 ^ 7 = 1 by omega]
    simp [h]

theorem map_fail {α β : Type} (f : α → β) (fault : WireFault) :
    f <$> (fail fault : Reader α) = fail fault := rfl

theorem varintFrom_succ (part : String) (left shift value : Nat) :
    varintFrom part (left + 1) shift value = byte part >>= fun b =>
      if left = 0 ∧ 1 < b.toNat % 128 then fail (.invalidLength value)
      else if b.toNat < 128 then Pure.pure (value + b.toNat % 128 * 2 ^ shift)
      else varintFrom part left (shift + 7) (value + b.toNat % 128 * 2 ^ shift) := rfl

theorem toNat_or_bits {value : UInt64} {b : UInt8} {index : Nat}
    (hvalue : value.toNat < 2 ^ (7 * index)) (hindex : index ≤ 9)
    (hlast : index = 9 → b.toNat % 128 ≤ 1) :
    (value ||| (b &&& 0x7f).toUInt64 <<< UInt64.ofNat (7 * index)).toNat =
      value.toNat + b.toNat % 128 * 2 ^ (7 * index) := by
  have hbits := toNat_bits b
  have hfits := bits_fit (Nat.mod_lt b.toNat (by decide : 0 < 128)) hindex hlast
  rw [Nat.add_one_mul] at hfits
  rw [Bytes.toNat_or_shiftLeft (by omega) hvalue (by rw [hbits]; omega), hbits]

/-- Each byte goes on from a value below its own place, which leaves one below the next place. -/
theorem varintInWordsFrom_eq (part : String) {left index : Nat} {value : UInt64}
    (hindex : left + index = maxVarintLength) (hvalue : value.toNat < 2 ^ (7 * index)) :
    UInt64.toNat <$> varintInWordsFrom part left index value =
      varintFrom part left (7 * index) value.toNat := by
  induction left generalizing index value with
  | zero => rfl
  | succ left ih =>
    have hten : left + (index + 1) = 10 := by rwa [← Nat.add_right_comm] at hindex
    rw [varintInWordsFrom, varintFrom_succ, map_bind]
    congr 1
    funext b
    dsimp only
    have hlarger : 1 < (b &&& 0x7f).toUInt64 ↔ 1 < b.toNat % 128 := by
      rw [UInt64.lt_iff_toNat_lt, toNat_bits]
      rfl
    by_cases hlarge : left = 0 ∧ 1 < b.toNat % 128
    · rw [if_pos (by rwa [hlarger]), if_pos hlarge, map_fail]
    · rw [if_neg (by rwa [hlarger]), if_neg hlarge]
      have hsum := toNat_or_bits (b := b) hvalue (by omega) (by omega)
      by_cases hends : b.toNat < 128
      · rw [if_pos ((ends_iff b).2 hends), if_pos hends, map_pure, hsum]
      · have hbelow : value.toNat + b.toNat % 128 * 2 ^ (7 * index) < 2 ^ (7 * (index + 1)) := by
          have := Nat.mul_le_mul_right (2 ^ (7 * index)) (show b.toNat % 128 ≤ 127 by omega)
          rw [show 2 ^ (7 * (index + 1)) = 2 ^ (7 * index) * 128 from Nat.pow_add 2 (7 * index) 7]
          omega
        rw [if_neg (mt (ends_iff b).1 hends), if_neg hends, ih hten (hsum ▸ hbelow), hsum,
          Nat.mul_add_one]

theorem varintInWords_eq (part : String) : UInt64.toNat <$> varintInWords part = varint part :=
  varintInWordsFrom_eq part rfl (by decide)

theorem leafInWords_eq (t : UInt8) (expected : String) :
    leafInWords t expected = leaf t expected := by
  have hpayload : (varintInWords expected >>= fun n => bytes expected n.toNat) =
      payload expected := by
    rw [payload, ← varintInWords_eq, bind_map_left]
  rw [leafInWords, leaf, hpayload]

theorem integerInWords_eq (t : UInt8) (element : String) :
    UInt64.toNat <$> integerInWords t element = integer t element := by
  rw [integerInWords, integer, map_bind, leafInWords_eq]
  congr 1
  funext digits
  split
  · rfl
  · rename_i h
    rw [map_pure, Bytes.toNat_wordOf (Nat.not_lt.1 h)]

theorem integer32InWords_eq (t : UInt8) (element : String) :
    integer32InWords t element = integer32 t element := by
  rw [integer32InWords, integer32, ← integerInWords_eq, bind_map_left]
  congr 1
  funext value
  split
  · have hnarrow : value.toUInt32 = UInt32.ofNat value.toNat := by
      rw [← UInt32.toNat_inj, UInt64.toNat_toUInt32, UInt32.toNat_ofNat']
    rw [hnarrow]
  · rw [Bytes.length_bigEndian_toNat, maxIntegerLength]

end Reader

/-- The framing on words of 64 bits is the framing on numbers. -/
structure SameInWords (t : UInt8) (part : String) : Prop where
  writesVarint : ∀ n : UInt64, varintInWords n = varint n.toNat
  writesInteger : ∀ n : UInt64, integerInWords t n = integer t n.toNat
  readsVarint : UInt64.toNat <$> Reader.varintInWords part = Reader.varint part
  readsInteger : UInt64.toNat <$> Reader.integerInWords t part = Reader.integer t part
  readsInteger32 : Reader.integer32InWords t part = Reader.integer32 t part

theorem sameInWords (t : UInt8) (part : String) : SameInWords t part where
  writesVarint := varintInWords_eq
  writesInteger := integerInWords_eq t
  readsVarint := Reader.varintInWords_eq part
  readsInteger := Reader.integerInWords_eq t part
  readsInteger32 := Reader.integer32InWords_eq t part

end Wire

end NamedContent
