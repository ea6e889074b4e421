import NamedContent.Proofs.FramingWords
import NamedContent.Proofs.ShortestForms

/-!
What the framing reads and writes, exactly. `LengthReading` lists the outcomes of reading a length
prefix: it ends within ten bytes and says a number of 64 bits, or its tenth byte says too much or
goes on, or the input ends before that. Integers are written without leading zeros, which is the
shortest way, and up to eight bytes are read as the number they make, zeros in front or not.
-/

namespace NamedContent

theorem Bytes.shortest_bigEndian (p : Bytes) :
    Wire.Shortest (bigEndian (ofBigEndian p)) p := by
  refine ⟨length_bigEndian_le (ofBigEndian_lt p), fun hlength => ?_⟩
  have hdigits := bigEndianOf_ofBigEndian (bigEndian (ofBigEndian p))
  rwa [ofBigEndian_bigEndian, hlength, bigEndianOf_ofBigEndian, eq_comm] at hdigits

namespace Wire

def septets : Bytes → Nat
  | [] => 0
  | b :: s => b.toNat % 128 + 128 * septets s

def Open (s : Bytes) : Prop := ∀ b ∈ s, 128 ≤ b.toNat

theorem septets_append (s t : Bytes) :
    septets (s ++ t) = septets s + septets t * 2 ^ (7 * s.length) := by
  induction s with
  | nil => simp [septets]
  | cons b s ih =>
    have hpow : 2 ^ (7 * (s.length + 1)) = 2 ^ (7 * s.length) * 128 := Nat.pow_add 2 _ 7
    rw [List.cons_append, septets, septets, ih, List.length_cons, hpow]
    ring

theorem septets_lt (s : Bytes) : septets s < 2 ^ (7 * s.length) := by
  induction s with
  | nil => simp [septets]
  | cons b s ih =>
    have hpow : 2 ^ (7 * (s.length + 1)) = 2 ^ (7 * s.length) * 128 := Nat.pow_add 2 _ 7
    rw [septets, List.length_cons, hpow]
    omega

theorem septets_concat (s : Bytes) (b : UInt8) :
    septets (s ++ [b]) = septets s + b.toNat % 128 * 2 ^ (7 * s.length) := by
  rw [septets_append]
  rfl

theorem Open.septets {s : Bytes} {b : UInt8} (hs : Open s) (hb : b.toNat < 128) :
    Septets (s ++ [b]) (septets (s ++ [b])) := by
  induction s with
  | nil =>
    have hvalue : Wire.septets [b] = b.toNat := by
      rw [Wire.septets, Wire.septets, Nat.mod_eq_of_lt hb]
      rfl
    rw [List.nil_append, hvalue]
    exact .last hb
  | cons c s ih =>
    exact .more (hs c List.mem_cons_self) (ih fun d hd => hs d (List.mem_cons_of_mem c hd))

theorem Septets.split {s : Bytes} {n : Nat} (h : Septets s n) :
    ∃ init b, s = init ++ [b] ∧ Open init ∧ b.toNat < 128 ∧ n = septets s := by
  induction h with
  | @last b hb =>
    refine ⟨[], b, rfl, nofun, hb, ?_⟩
    rw [septets, septets, Nat.mod_eq_of_lt hb]
    rfl
  | @more c s n hc hs ih =>
    obtain ⟨init, b, rfl, hinit, hb, rfl⟩ := ih
    exact ⟨c :: init, b, rfl, List.forall_mem_cons.2 ⟨hc, hinit⟩, hb, rfl⟩

/-- How a length prefix is read at the front of the input, and what is left. -/
inductive LengthReading (part : String) : Bytes → Except WireFault Nat × Bytes → Prop
  | ends {digits rest : Bytes} {n : Nat} (hdigits : Septets digits n)
    (hlength : digits.length ≤ 10) (hn : n < 2 ^ 64) :
    LengthReading part (digits ++ rest) (.ok n, rest)
  /-- The tenth byte says more than one bit. -/
  | overflows {digits rest : Bytes} {b : UInt8} (hopen : Open digits) (hlength : digits.length = 9)
    (hb : 1 < b.toNat % 128) :
    LengthReading part (digits ++ b :: rest) (.error (.invalidLength (septets digits)), rest)
  /-- The tenth byte says that another one follows. -/
  | goesOn {digits rest : Bytes} (hopen : Open digits) (hlength : digits.length = 10)
    (hn : septets digits < 2 ^ 64) :
    LengthReading part (digits ++ rest) (.error (.invalidLength (septets digits)), rest)
  | cut {digits : Bytes} (hopen : Open digits) (hlength : digits.length < 10) :
    LengthReading part digits (.error (.truncated part), [])

namespace Reader

variable {part : String} {s rest : Bytes}

theorem varintFrom_cons (part : String) (left shift value : Nat) (b : UInt8) (rest : Bytes) :
    varintFrom part (left + 1) shift value (b :: rest) =
      if left = 0 ∧ 1 < b.toNat % 128 then (.error (.invalidLength value), rest)
      else if b.toNat < 128 then (.ok (value + b.toNat % 128 * 2 ^ shift), rest)
      else varintFrom part left (shift + 7) (value + b.toNat % 128 * 2 ^ shift) rest := by
  have hbyte : byte part (b :: rest) = (.ok b, rest) := rfl
  rw [varintFrom_succ]
  refine (bind_ok hbyte).trans ?_
  split
  · rfl
  · split <;> rfl

theorem varintFrom_append (part : String) {digits : Bytes} (hopen : Open digits)
    (left shift value : Nat) (s : Bytes) :
    varintFrom part (left + 1 + digits.length) shift value (digits ++ s) =
      varintFrom part (left + 1) (shift + 7 * digits.length)
        (value + septets digits * 2 ^ shift) s := by
  induction digits generalizing shift value with
  | nil => simp [septets]
  | cons b digits ih =>
    have hb := hopen b List.mem_cons_self
    have hleft : left + 1 + digits.length ≠ 0 := by omega
    have hsum : value + b.toNat % 128 * 2 ^ shift + septets digits * 2 ^ (shift + 7) =
        value + septets (b :: digits) * 2 ^ shift := by
      rw [septets, Nat.pow_add]
      ring
    rw [List.cons_append, List.length_cons, ← Nat.add_assoc, varintFrom_cons,
      if_neg fun h => hleft h.1, if_neg (Nat.not_lt.2 hb),
      ih fun d hd => hopen d (List.mem_cons_of_mem b hd), hsum,
      show shift + 7 + 7 * digits.length = shift + 7 * (digits.length + 1) by ring]

theorem varint_append (part : String) {digits : Bytes} (hopen : Open digits) {left : Nat}
    (hlength : digits.length + left = 9) (s : Bytes) :
    varint part (digits ++ s) =
      varintFrom part (left + 1) (7 * digits.length) (septets digits) s := by
  have h := varintFrom_append part hopen left 0 0 s
  rwa [Nat.zero_add, Nat.pow_zero, Nat.mul_one, Nat.zero_add,
    show left + 1 + digits.length = maxVarintLength by rw [maxVarintLength]; omega] at h

theorem varint_of_lengthReading {out : Except WireFault Nat × Bytes}
    (h : LengthReading part s out) : varint part s = out := by
  cases h with
  | @ends digits rest n hdigits hlength hn =>
    obtain ⟨init, b, rfl, hopen, hb, rfl⟩ := hdigits.split
    rw [List.length_append, List.length_singleton] at hlength
    obtain ⟨left, hleft⟩ : ∃ left, init.length + left = 9 := ⟨9 - init.length, by omega⟩
    have hlast : ¬ (left = 0 ∧ 1 < b.toNat % 128) := by
      rintro ⟨rfl, hlarge⟩
      rw [septets_concat, show init.length = 9 from hleft] at hn
      omega
    rw [List.append_assoc, varint_append part hopen hleft, List.singleton_append, varintFrom_cons,
      if_neg hlast, if_pos hb, septets_concat]
  | @overflows digits rest b hopen hlength hb =>
    have hnine : digits.length + 0 = 9 := hlength
    rw [varint_append part hopen hnine, varintFrom_cons, if_pos ⟨rfl, hb⟩]
  | @goesOn digits rest hopen hlength hn =>
    obtain ⟨init, b, rfl⟩ : ∃ init b, digits = init ++ [b] := by
      refine ⟨digits.dropLast, _, (List.dropLast_append_getLast ?_).symm⟩
      rintro rfl
      simp at hlength
    obtain ⟨hinit, hb⟩ := List.forall_mem_append.1 hopen
    have hb := hb b List.mem_cons_self
    rw [List.length_append, List.length_singleton] at hlength
    have hnine : init.length + 0 = 9 := by omega
    have hlast : ¬ 1 < b.toNat % 128 := by
      rw [septets_concat, show init.length = 9 from hnine] at hn
      omega
    rw [List.append_assoc, varint_append part hinit hnine, List.singleton_append, varintFrom_cons,
      if_neg fun h => hlast h.2, if_neg (Nat.not_lt.2 hb), septets_concat]
    rfl
  | @cut digits hopen hlength =>
    obtain ⟨left, hleft⟩ : ∃ left, s.length + left = 9 := ⟨9 - s.length, by omega⟩
    have h := varint_append part hopen hleft []
    rw [List.append_nil] at h
    rw [h]
    rfl

theorem exists_open_beginning (s : Bytes) (k : Nat) :
    ∃ digits rest, s = digits ++ rest ∧ Open digits ∧ digits.length ≤ k ∧
      (digits.length = k ∨ ∀ b ∈ rest.head?, b.toNat < 128) := by
  induction k generalizing s with
  | zero => exact ⟨[], s, rfl, nofun, Nat.le_refl 0, .inl rfl⟩
  | succ k ih =>
    cases s with
    | nil => exact ⟨[], [], rfl, nofun, Nat.zero_le _, .inr nofun⟩
    | cons b s =>
      by_cases hb : b.toNat < 128
      · refine ⟨[], b :: s, rfl, nofun, Nat.zero_le _, .inr ?_⟩
        simpa using hb
      · obtain ⟨digits, rest, rfl, hopen, hlength, hstop⟩ := ih s
        refine ⟨b :: digits, rest, rfl, List.forall_mem_cons.2 ⟨Nat.not_lt.1 hb, hopen⟩, ?_, ?_⟩
        · exact Nat.succ_le_succ hlength
        · exact hstop.imp_left fun h => congrArg Nat.succ h

theorem exists_lengthReading (part : String) (s : Bytes) : ∃ out, LengthReading part s out := by
  obtain ⟨digits, rest, rfl, hopen, hlength, hstop⟩ := exists_open_beginning s 9
  cases rest with
  | nil =>
    rw [List.append_nil]
    exact ⟨_, .cut hopen (by omega)⟩
  | cons b rest =>
    rw [List.head?_cons] at hstop
    by_cases hlarge : digits.length = 9 ∧ 1 < b.toNat % 128
    · exact ⟨_, .overflows hopen hlarge.1 hlarge.2⟩
    · have hn : septets (digits ++ [b]) < 2 ^ 64 := by
        have hdigits := septets_lt digits
        have hfits := bits_fit (Nat.mod_lt b.toNat (by decide : 0 < 128)) hlength (by omega)
        rw [Nat.add_one_mul] at hfits
        rw [septets_concat]
        omega
      rw [← List.singleton_append, ← List.append_assoc]
      have hlength' : (digits ++ [b]).length = digits.length + 1 := by simp
      by_cases hb : b.toNat < 128
      · exact ⟨_, .ends (hopen.septets hb) (by omega) hn⟩
      · have hnine : digits.length = 9 := hstop.resolve_right fun h => hb (h b rfl)
        refine ⟨_, .goesOn ?_ (by omega) hn⟩
        exact List.forall_mem_append.2 ⟨hopen, List.forall_mem_singleton.2 (Nat.not_lt.1 hb)⟩

theorem varint_eq_iff {out : Except WireFault Nat × Bytes} :
    varint part s = out ↔ LengthReading part s out := by
  refine ⟨?_, varint_of_lengthReading⟩
  rintro rfl
  obtain ⟨out, h⟩ := exists_lengthReading part s
  rwa [varint_of_lengthReading h]

end Reader

/-- A leaf of the tag, whole: its length may be written in up to ten bytes. -/
structure LeafForm (t : UInt8) (payload s : Bytes) : Prop where
  exists_digits : ∃ digits, s = t :: (digits ++ payload) ∧ Septets digits payload.length ∧
    digits.length ≤ 10
  sized : payload.length < 2 ^ 64

namespace Reader

variable {t : UInt8} {payload s : Bytes}

theorem leaf_of_leafForm (expected : String) (h : LeafForm t payload s) (rest : Bytes) :
    leaf t expected (s ++ rest) = (.ok payload, rest) := by
  obtain ⟨⟨digits, rfl, hdigits, hlength⟩, hsized⟩ := h
  have hvarint : Reads (varint expected) digits payload.length (payload ++ rest) :=
    varint_of_lengthReading (.ends hdigits hlength hsized)
  exact Reads.bind (s := [t]) (reads_tag expected t _)
    (hvarint.bind (reads_bytes expected payload rest))

theorem integer_of_leafForm (element : String) (h : LeafForm t payload s) (rest : Bytes) :
    integer t element (s ++ rest) =
      (if 8 < payload.length then .error (.integerOverflow element payload.length)
        else .ok (Bytes.ofBigEndian payload), rest) := by
  rw [integer, bind_ok (leaf_of_leafForm element h rest), maxIntegerLength]
  split <;> rfl

theorem integer32_of_leafForm (element : String) (h : LeafForm t payload s) (rest : Bytes) :
    integer32 t element (s ++ rest) =
      (if 8 < payload.length then .error (.integerOverflow element payload.length)
        else if 2 ^ 32 ≤ Bytes.ofBigEndian payload then
          .error (.integerOverflow element
            (Bytes.bigEndian (Bytes.ofBigEndian payload)).length)
        else .ok (UInt32.ofNat (Bytes.ofBigEndian payload)), rest) := by
  have hinteger := integer_of_leafForm element h rest
  by_cases hlong : 8 < payload.length
  · rw [if_pos hlong] at hinteger ⊢
    exact bind_error hinteger
  · rw [if_neg hlong] at hinteger ⊢
    refine (bind_ok hinteger).trans ?_
    by_cases hlarge : 2 ^ 32 ≤ Bytes.ofBigEndian payload
    · have hsize : ¬ Bytes.ofBigEndian payload < UInt32.size := Nat.not_lt.2 hlarge
      rw [if_neg hsize, if_pos hlarge]
      rfl
    · have hsize : Bytes.ofBigEndian payload < UInt32.size := Nat.not_le.1 hlarge
      rw [if_pos hsize, if_neg hlarge]
      rfl

end Reader

/-- On words and on numbers alike: a length prefix is read back, and reading one has the outcomes
of `LengthReading`. Integers are written as their shortest payload and read back. A whole leaf of
up to eight bytes is read as the number they make; as one of 32 bits it is refused if it has more
bytes or makes more, and then the bytes are told, without zeros in front in the second case. -/
theorem framing_exact (t : UInt8) (part : String) :
    SameInWords t part ∧
      (∀ (n : UInt64) rest, Reader.varint part (varint n.toNat ++ rest) = (.ok n.toNat, rest)) ∧
      (∀ s out, Reader.varint part s = out ↔ LengthReading part s out) ∧
      (∀ n : UInt64, ∃ p, integer t n.toNat = leaf t p ∧ Bytes.ofBigEndian p = n.toNat ∧
        (∀ q, Bytes.ofBigEndian q = n.toNat → Shortest p q) ∧
        ∀ rest, Reader.integer t part (integer t n.toNat ++ rest) = (.ok n.toNat, rest)) ∧
      ∀ p s, LeafForm t p s → ∀ rest,
        (p.length ≤ 8 →
          Reader.integer t part (s ++ rest) = (.ok (Bytes.ofBigEndian p), rest)) ∧
        Reader.integer32 t part (s ++ rest) =
          (if 8 < p.length then .error (.integerOverflow part p.length)
            else if 2 ^ 32 ≤ Bytes.ofBigEndian p then
              .error (.integerOverflow part (Bytes.bigEndian (Bytes.ofBigEndian p)).length)
            else .ok (UInt32.ofNat (Bytes.ofBigEndian p)), rest) := by
  refine ⟨sameInWords t part, fun n => Reader.reads_varint part n.toNat_lt,
    fun s out => Reader.varint_eq_iff, fun n => ⟨Bytes.bigEndian n.toNat, rfl,
      Bytes.ofBigEndian_bigEndian _, fun q hq => hq ▸ Bytes.shortest_bigEndian q,
      Reader.reads_integer t part n.toNat_lt⟩, fun p s hs rest => ⟨fun hlength => ?_, ?_⟩⟩
  · rw [Reader.integer_of_leafForm part hs rest, if_neg (Nat.not_lt.2 hlength)]
  · exact Reader.integer32_of_leafForm part hs rest

theorem framing_exact_sample :
    LeafForm 0x0e [0, 1, 0, 0, 0, 0] [0x0e, 0x86, 0x00, 0, 1, 0, 0, 0, 0] ∧
      Reader.integer32 0x0e "Scope" [0x0e, 0x86, 0x00, 0, 1, 0, 0, 0, 0] =
        (.error (.integerOverflow "Scope" 5), []) := by
  have hdigits : Septets [0x86, 0x00] 6 := .more (by decide) (.last (by decide))
  have hform : LeafForm 0x0e [0, 1, 0, 0, 0, 0] [0x0e, 0x86, 0x00, 0, 1, 0, 0, 0, 0] :=
    ⟨⟨[0x86, 0x00], rfl, hdigits, by decide⟩, by decide⟩
  have hread := ((framing_exact 0x0e "Scope").2.2.2.2 _ _ hform []).2
  have hlength : (Bytes.bigEndian (Bytes.ofBigEndian [0, 1, 0, 0, 0, 0])).length = 5 := by cbv
  rw [hlength] at hread
  exact ⟨hform, hread⟩

end Wire

end NamedContent
