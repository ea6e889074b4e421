import NamedContent.Proofs.UriRoundTrip

/-!
Percent escapes in the bytes of a text. An escape is a percent sign with two hexadecimal digits
right after it and stands for one byte; any other byte stands for itself. Reading a text finds
what its bytes mean, or the first of its percent signs that is without its digits.

Reading goes by characters, and positions count bytes. The two agree because a character that
is not ASCII is written with bytes from 128 on, which are neither percent signs nor digits.
-/

namespace NamedContent.Uri

def percent : UInt8 := 37

def utf8 (s : List Char) : Bytes := s.flatMap String.utf8EncodeChar

def hexByte? (b : UInt8) : Option Nat := Bytes.hexValue? (Char.ofNat b.toNat)

def TwoDigits (s : Bytes) : Prop :=
  ∃ hi lo rest, s = hi :: lo :: rest ∧ (hexByte? hi).isSome ∧ (hexByte? lo).isSome

/-- At byte `k` stands a percent sign that begins no escape. -/
def BadAt (s : Bytes) (k : Nat) : Prop := s[k]? = some percent ∧ ¬ TwoDigits (s.drop (k + 1))

def FirstBad (s : Bytes) (k : Nat) : Prop := BadAt s k ∧ ∀ j < k, ¬ BadAt s j

inductive Decodes : Bytes → Bytes → Prop
  | nil : Decodes [] []
  | escape {hi lo : UInt8} {h l : Nat} {s bytes : Bytes} (hhi : hexByte? hi = some h)
      (hlo : hexByte? lo = some l) (hs : Decodes s bytes) :
      Decodes (percent :: hi :: lo :: s) (UInt8.ofNat (16 * h + l) :: bytes)
  | plain {b : UInt8} {s bytes : Bytes} (hb : b ≠ percent) (hs : Decodes s bytes) :
      Decodes (b :: s) (b :: bytes)

section Bytewise

variable {b hi lo : UInt8} {s bytes : Bytes} {k : Nat}

theorem ne_percent_of_isSome_hexByte? (h : (hexByte? b).isSome) : b ≠ percent := by
  rintro rfl
  revert h
  decide

theorem badAt_zero_iff : BadAt (b :: s) 0 ↔ b = percent ∧ ¬ TwoDigits s := by
  simp [BadAt]

theorem badAt_succ_iff : BadAt (b :: s) (k + 1) ↔ BadAt s k := by
  simp [BadAt]

theorem FirstBad.cons (hb : ¬ BadAt (b :: s) 0) (h : FirstBad s k) :
    FirstBad (b :: s) (k + 1) := by
  refine ⟨badAt_succ_iff.2 h.1, fun j hj => ?_⟩
  cases j with
  | zero => exact hb
  | succ j => exact fun hbad => h.2 j (Nat.lt_of_succ_lt_succ hj) (badAt_succ_iff.1 hbad)

theorem not_badAt_zero_of_ne (hb : b ≠ percent) : ¬ BadAt (b :: s) 0 :=
  fun h => hb (badAt_zero_iff.1 h).1

theorem not_badAt_zero_of_twoDigits (h : TwoDigits s) : ¬ BadAt (b :: s) 0 :=
  fun hbad => (badAt_zero_iff.1 hbad).2 h

theorem FirstBad.append {front : Bytes} (hfront : percent ∉ front) (h : FirstBad s k) :
    FirstBad (front ++ s) (front.length + k) := by
  induction front with
  | nil => simpa using h
  | cons b front ih =>
    obtain ⟨hb, hfront⟩ := not_or.1 (mt List.mem_cons.2 hfront)
    have hrest := (ih hfront).cons (not_badAt_zero_of_ne (Ne.symm hb))
    rwa [List.length_cons, Nat.add_right_comm]

theorem FirstBad.escape (hhi : (hexByte? hi).isSome) (hlo : (hexByte? lo).isSome)
    (h : FirstBad s k) : FirstBad (percent :: hi :: lo :: s) (k + 3) := by
  have hlow := h.cons (not_badAt_zero_of_ne (ne_percent_of_isSome_hexByte? hlo))
  have hdigits := hlow.cons (not_badAt_zero_of_ne (ne_percent_of_isSome_hexByte? hhi))
  exact hdigits.cons (not_badAt_zero_of_twoDigits ⟨hi, lo, s, rfl, hhi, hlo⟩)

theorem firstBad_zero (h : ¬ TwoDigits s) : FirstBad (percent :: s) 0 :=
  ⟨badAt_zero_iff.2 ⟨rfl, h⟩, by simp⟩

theorem Decodes.append {front : Bytes} (hfront : percent ∉ front) (h : Decodes s bytes) :
    Decodes (front ++ s) (front ++ bytes) := by
  induction front with
  | nil => exact h
  | cons b front ih =>
    obtain ⟨hb, hfront⟩ := not_or.1 (mt List.mem_cons.2 hfront)
    exact .plain (Ne.symm hb) (ih hfront)

theorem Decodes.not_badAt (h : Decodes s bytes) (k : Nat) : ¬ BadAt s k := by
  induction h generalizing k with
  | nil => simp [BadAt]
  | @escape hi lo h l s bytes hhi hlo hs ih =>
    have hhi' : (hexByte? hi).isSome := by simp [hhi]
    have hlo' : (hexByte? lo).isSome := by simp [hlo]
    match k with
    | 0 => exact not_badAt_zero_of_twoDigits ⟨hi, lo, s, rfl, hhi', hlo'⟩
    | 1 =>
      rw [badAt_succ_iff]
      exact not_badAt_zero_of_ne (ne_percent_of_isSome_hexByte? hhi')
    | 2 =>
      rw [badAt_succ_iff, badAt_succ_iff]
      exact not_badAt_zero_of_ne (ne_percent_of_isSome_hexByte? hlo')
    | k + 3 =>
      rw [badAt_succ_iff, badAt_succ_iff, badAt_succ_iff]
      exact ih k
  | plain hb hs ih =>
    cases k with
    | zero => exact not_badAt_zero_of_ne hb
    | succ k =>
      rw [badAt_succ_iff]
      exact ih k

theorem Decodes.unique {other : Bytes} (h : Decodes s bytes) (h' : Decodes s other) :
    bytes = other := by
  induction h generalizing other with
  | nil => cases h'; rfl
  | escape hhi hlo hs ih =>
    cases h' with
    | escape hhi' hlo' hs' =>
      obtain rfl := Option.some.inj (hhi.symm.trans hhi')
      obtain rfl := Option.some.inj (hlo.symm.trans hlo')
      rw [ih hs']
    | plain hb => exact absurd rfl hb
  | plain hb hs ih =>
    cases h' with
    | escape => exact absurd rfl hb
    | plain _ hs' => rw [ih hs']

theorem FirstBad.unique {j : Nat} (h : FirstBad s k) (h' : FirstBad s j) : k = j := by
  rcases Nat.lt_trichotomy k j with hlt | rfl | hlt
  · exact absurd h.1 (h'.2 k hlt)
  · rfl
  · exact absurd h'.1 (h.2 j hlt)

end Bytewise

section Characters

variable {c : Char}

theorem utf8EncodeChar_of_lt (h : c.toNat < 128) :
    String.utf8EncodeChar c = [UInt8.ofNat c.toNat] := by
  have hb : (UInt8.ofNat c.toNat).toNat = c.toNat := by
    rw [UInt8.toNat_ofNat']
    omega
  have hascii := utf8EncodeChar_ascii (b := UInt8.ofNat c.toNat) (by omega)
  rwa [hb, Char.ofNat_toNat] at hascii

theorem utf8EncodeChar_of_ge (h : 128 ≤ c.toNat) :
    ∀ b ∈ String.utf8EncodeChar c, 128 ≤ b.toNat := by
  have hv : ¬ c.val.toNat ≤ 127 := Nat.not_le.2 h
  unfold String.utf8EncodeChar
  simp only [hv, if_false]
  split
  · simp
    omega
  · split
    · simp
      omega
    · simp
      omega

theorem utf8EncodeChar_ne_nil (c : Char) : String.utf8EncodeChar c ≠ [] := by
  rw [← List.length_pos_iff, String.length_utf8EncodeChar]
  exact c.utf8Size_pos

theorem toNat_ofNat_byte (b : UInt8) : (Char.ofNat b.toNat).toNat = b.toNat := by
  have hb := b.toNat_lt
  rw [Char.ofNat, dif_pos (.inl (by omega))]
  rfl

theorem toNat_lt_of_hexValue? {v : Nat} (h : Bytes.hexValue? c = some v) : c.toNat < 128 := by
  simp only [Bytes.hexValue?] at h
  split at h
  · omega
  · split at h
    · omega
    · split at h
      · omega
      · cases h

theorem hexByte?_eq_none_of_ge {b : UInt8} (h : 128 ≤ b.toNat) : hexByte? b = none := by
  cases hv : hexByte? b with
  | none => rfl
  | some v =>
    have hlt := toNat_lt_of_hexValue? hv
    rw [toNat_ofNat_byte] at hlt
    omega

theorem hexByte?_of_lt (h : c.toNat < 128) :
    hexByte? (UInt8.ofNat c.toNat) = Bytes.hexValue? c := by
  have hb : (UInt8.ofNat c.toNat).toNat = c.toNat := by
    rw [UInt8.toNat_ofNat']
    omega
  rw [hexByte?, hb, Char.ofNat_toNat]

theorem utf8EncodeChar_of_hexValue? {v : Nat} (h : Bytes.hexValue? c = some v) :
    ∃ b, String.utf8EncodeChar c = [b] ∧ hexByte? b = some v := by
  have hlt := toNat_lt_of_hexValue? h
  exact ⟨_, utf8EncodeChar_of_lt hlt, (hexByte?_of_lt hlt).trans h⟩

theorem utf8EncodeChar_of_hexValue?_none (h : Bytes.hexValue? c = none) :
    ∃ b bs, String.utf8EncodeChar c = b :: bs ∧ hexByte? b = none := by
  by_cases hlt : c.toNat < 128
  · exact ⟨_, [], utf8EncodeChar_of_lt hlt, (hexByte?_of_lt hlt).trans h⟩
  · obtain ⟨b, bs, hbytes⟩ := List.exists_cons_of_ne_nil (utf8EncodeChar_ne_nil c)
    have hb := utf8EncodeChar_of_ge (Nat.not_lt.1 hlt) b (by simp [hbytes])
    exact ⟨b, bs, hbytes, hexByte?_eq_none_of_ge hb⟩

theorem percent_not_mem_utf8EncodeChar (hc : c ≠ '%') : percent ∉ String.utf8EncodeChar c := by
  have hp : percent.toNat = 37 := rfl
  by_cases hlt : c.toNat < 128
  · rw [utf8EncodeChar_of_lt hlt, List.mem_singleton, ← UInt8.toNat_inj, hp, UInt8.toNat_ofNat']
    intro he
    refine hc (Char.toNat_inj.1 ?_)
    show c.toNat = 37
    omega
  · intro hmem
    have := utf8EncodeChar_of_ge (Nat.not_lt.1 hlt) _ hmem
    omega

theorem utf8_cons (c : Char) (s : List Char) :
    utf8 (c :: s) = String.utf8EncodeChar c ++ utf8 s :=
  List.flatMap_cons

theorem utf8_append (s t : List Char) : utf8 (s ++ t) = utf8 s ++ utf8 t :=
  List.flatMap_append

theorem twoDigits_utf8_iff {s : List Char} : TwoDigits (utf8 s) ↔
    ∃ hi lo rest, s = hi :: lo :: rest ∧ (Bytes.hexValue? hi).isSome ∧
      (Bytes.hexValue? lo).isSome := by
  constructor
  · rintro ⟨x, y, bytes, hs, hx, hy⟩
    cases s with
    | nil => cases hs
    | cons hi s =>
      rw [utf8_cons] at hs
      cases hhi : Bytes.hexValue? hi with
      | none =>
        obtain ⟨b, bs, hb, hnone⟩ := utf8EncodeChar_of_hexValue?_none hhi
        rw [hb] at hs
        obtain ⟨rfl, -⟩ := List.cons.inj hs
        simp [hnone] at hx
      | some h =>
        obtain ⟨b, hb, -⟩ := utf8EncodeChar_of_hexValue? hhi
        rw [hb, List.singleton_append] at hs
        obtain ⟨rfl, hrest⟩ := List.cons.inj hs
        cases s with
        | nil => cases hrest
        | cons lo s =>
          refine ⟨hi, lo, s, rfl, by simp [hhi], ?_⟩
          cases hlo : Bytes.hexValue? lo with
          | some l => rfl
          | none =>
            obtain ⟨b, bs, hb, hnone⟩ := utf8EncodeChar_of_hexValue?_none hlo
            rw [utf8_cons, hb] at hrest
            obtain ⟨rfl, -⟩ := List.cons.inj hrest
            simp [hnone] at hy
  · rintro ⟨hi, lo, rest, rfl, hhi, hlo⟩
    obtain ⟨h, hh⟩ := Option.isSome_iff_exists.1 hhi
    obtain ⟨l, hl⟩ := Option.isSome_iff_exists.1 hlo
    obtain ⟨x, hx, hxv⟩ := utf8EncodeChar_of_hexValue? hh
    obtain ⟨y, hy, hyv⟩ := utf8EncodeChar_of_hexValue? hl
    refine ⟨x, y, utf8 rest, ?_, by simp [hxv], by simp [hyv]⟩
    rw [utf8_cons, utf8_cons, hx, hy]
    rfl

end Characters

/-- What reading bytes from position `offset` on should answer: what they mean, or the position
of their first percent sign that begins no escape. -/
def Reading (offset : Nat) (s : Bytes) : Except Nat Bytes → Prop
  | .ok bytes => Decodes s bytes
  | .error position => ∃ k, position = offset + k ∧ FirstBad s k

section Reading

variable {offset : Nat} {s : Bytes} {answer : Except Nat Bytes}

theorem Reading.append {front : Bytes} (hfront : percent ∉ front)
    (h : Reading (offset + front.length) s answer) :
    Reading offset (front ++ s) ((front ++ ·) <$> answer) := by
  cases answer with
  | ok bytes => exact Decodes.append hfront h
  | error position =>
    obtain ⟨k, rfl, hbad⟩ := h
    exact ⟨front.length + k, Nat.add_assoc _ _ _, hbad.append hfront⟩

theorem Reading.escape {hi lo : UInt8} {h l : Nat} (hhi : hexByte? hi = some h)
    (hlo : hexByte? lo = some l) (hrest : Reading (offset + 3) s answer) :
    Reading offset (percent :: hi :: lo :: s)
      ((UInt8.ofNat (16 * h + l) :: ·) <$> answer) := by
  cases answer with
  | ok bytes => exact Decodes.escape hhi hlo hrest
  | error position =>
    obtain ⟨k, rfl, hbad⟩ := hrest
    exact ⟨k + 3, by omega, hbad.escape (by simp [hhi]) (by simp [hlo])⟩

theorem Reading.stop (h : ¬ TwoDigits s) : Reading offset (percent :: s) (.error offset) :=
  ⟨0, rfl, firstBad_zero h⟩

end Reading

theorem unescape_stop {rest : List Char} (h : ¬ TwoDigits (utf8 rest)) (offset : Nat) :
    unescape offset ('%' :: rest) = .error offset := by
  rw [twoDigits_utf8_iff] at h
  match rest with
  | [] => rfl
  | [hi] => rfl
  | hi :: lo :: rest =>
    rw [unescape]
    split
    · rename_i hh hl
      exact absurd ⟨hi, lo, rest, rfl, by simp [hh], by simp [hl]⟩ h
    · rfl

theorem unescape_reading (offset : Nat) (s : List Char) :
    Reading offset (utf8 s) (unescape offset s) := by
  induction offset, s using unescape.induct with
  | case1 => exact Decodes.nil
  | case2 offset hi lo rest h l hl hh ih =>
    obtain ⟨x, hx, hxv⟩ := utf8EncodeChar_of_hexValue? hh
    obtain ⟨y, hy, hyv⟩ := utf8EncodeChar_of_hexValue? hl
    have hread : unescape offset ('%' :: hi :: lo :: rest) =
        (UInt8.ofNat (16 * h + l) :: ·) <$> unescape (offset + 3) rest := by
      simp only [unescape, hh, hl]
      rfl
    rw [hread, utf8_cons, utf8_cons, utf8_cons, hx, hy]
    exact ih.escape hxv hyv
  | case3 offset hi lo rest hnot =>
    have hdigits : ¬ TwoDigits (utf8 (hi :: lo :: rest)) := by
      rw [twoDigits_utf8_iff]
      rintro ⟨hi', lo', rest', heq, hhi, hlo⟩
      cases heq
      obtain ⟨h, hh⟩ := Option.isSome_iff_exists.1 hhi
      obtain ⟨l, hl⟩ := Option.isSome_iff_exists.1 hlo
      exact hnot h l hh hl
    rw [unescape_stop hdigits]
    exact Reading.stop hdigits
  | case4 offset rest hshort =>
    have hdigits : ¬ TwoDigits (utf8 rest) := by
      rw [twoDigits_utf8_iff]
      rintro ⟨hi, lo, rest', heq, -⟩
      exact hshort hi lo rest' rfl heq
    rw [unescape_stop hdigits]
    exact Reading.stop hdigits
  | case5 offset c rest _ hc ih =>
    rw [← String.length_utf8EncodeChar] at ih
    rw [unescape_plain hc, utf8_cons, ← String.length_utf8EncodeChar]
    exact ih.append (percent_not_mem_utf8EncodeChar hc)

theorem unescape_eq_ok_iff {offset : Nat} {s : List Char} {bytes : Bytes} :
    unescape offset s = .ok bytes ↔ Decodes (utf8 s) bytes := by
  have hreading := unescape_reading offset s
  constructor
  · intro h
    rwa [h] at hreading
  · intro h
    cases hread : unescape offset s with
    | ok found =>
      rw [hread] at hreading
      rw [Decodes.unique hreading h]
    | error position =>
      rw [hread] at hreading
      obtain ⟨k, -, hbad⟩ := hreading
      exact absurd hbad.1 (h.not_badAt k)

theorem unescape_eq_error_iff {offset position : Nat} {s : List Char} :
    unescape offset s = .error position ↔ ∃ k, position = offset + k ∧ FirstBad (utf8 s) k := by
  have hreading := unescape_reading offset s
  constructor
  · intro h
    rwa [h] at hreading
  · rintro ⟨k, rfl, hbad⟩
    cases hread : unescape offset s with
    | ok found =>
      rw [hread] at hreading
      exact absurd hbad.1 (Decodes.not_badAt hreading k)
    | error position =>
      rw [hread] at hreading
      obtain ⟨j, rfl, hfirst⟩ := hreading
      rw [hbad.unique hfirst]

end NamedContent.Uri
