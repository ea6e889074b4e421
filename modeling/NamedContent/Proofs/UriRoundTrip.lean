import NamedContent.Name.Uri

/-!
The URI form read back. A byte written plainly or as an escape is read as that byte; the three
dots that a component of dots is written with are the three that reading takes away; no
component is written with a slash, so the parts between slashes are the components as they were
written, and none of them is empty. A name is therefore read back from its own text, the root
and empty components included, and two names never share a text.

That some names have other texts as well, and what reading makes of those, is not the matter
here.
-/

namespace NamedContent

namespace Bytes

theorem hexValue?_upperHexDigit : ∀ n < 16, hexValue? (upperHexDigit n) = some n := by
  decide

theorem upperHexDigit_ne_slash : ∀ n < 16, upperHexDigit n ≠ '/' := by
  decide

end Bytes

namespace Uri

theorem isUnreserved_bounds {b : UInt8} (h : isUnreserved b = true) :
    b.toNat < 128 ∧ b.toNat ≠ '%'.toNat ∧ b.toNat ≠ '/'.toNat := by
  simp only [isUnreserved, Bool.or_eq_true, Bool.and_eq_true, decide_eq_true_eq, beq_iff_eq,
    UInt8.le_iff_toNat_le, UInt8.toNat_inj.symm, UInt8.toNat_ofNat] at h
  change b.toNat < 128 ∧ b.toNat ≠ 37 ∧ b.toNat ≠ 47
  omega

theorem toNat_ascii : ∀ n < 128, (Char.ofNat n).toNat = n := by
  decide

theorem utf8EncodeChar_ascii {b : UInt8} (h : b.toNat < 128) :
    String.utf8EncodeChar (Char.ofNat b.toNat) = [b] := by
  have hc := toNat_ascii b.toNat h
  have hsize : (Char.ofNat b.toNat).utf8Size = 1 := by
    rw [Char.utf8Size_eq_one_iff, UInt32.le_iff_toNat_le]
    change (Char.ofNat b.toNat).toNat ≤ 127
    omega
  rw [String.utf8EncodeChar_eq_singleton hsize, List.cons.injEq, ← UInt8.toNat_inj]
  refine ⟨?_, rfl⟩
  rw [UInt32.toNat_toUInt8]
  change (Char.ofNat b.toNat).toNat % 256 = b.toNat
  omega

theorem unescape_plain {c : Char} (hc : c ≠ '%') (offset : Nat) (rest : List Char) :
    unescape offset (c :: rest) =
      (String.utf8EncodeChar c ++ ·) <$> unescape (offset + c.utf8Size) rest := by
  rw [unescape, if_neg hc]
  · rfl
  · rintro hi lo rest h _
    exact hc h

theorem unescape_escape (b : UInt8) (offset : Nat) (rest : List Char) :
    unescape offset ('%' :: Bytes.upperHexDigit (b.toNat / 16) ::
        Bytes.upperHexDigit (b.toNat % 16) :: rest) =
      (b :: ·) <$> unescape (offset + 3) rest := by
  have hb := b.toNat_lt
  have hhi := Bytes.hexValue?_upperHexDigit (b.toNat / 16) (by omega)
  have hlo := Bytes.hexValue?_upperHexDigit (b.toNat % 16) (by omega)
  have hval : UInt8.ofNat (16 * (b.toNat / 16) + b.toNat % 16) = b := by
    rw [Nat.div_add_mod, UInt8.ofNat_toNat]
  simp only [unescape, hhi, hlo, hval]
  rfl

theorem unescape_byteChars (b : UInt8) (offset : Nat) (rest : List Char) :
    ∃ next, unescape offset (byteChars b ++ rest) = (b :: ·) <$> unescape next rest := by
  unfold byteChars
  split
  case isTrue h =>
    obtain ⟨hascii, hpercent, _⟩ := isUnreserved_bounds h
    have hne : Char.ofNat b.toNat ≠ '%' := fun he =>
      hpercent (by rw [← toNat_ascii b.toNat hascii, he])
    refine ⟨offset + (Char.ofNat b.toNat).utf8Size, ?_⟩
    rw [List.singleton_append, unescape_plain hne, utf8EncodeChar_ascii hascii]
    rfl
  case isFalse =>
    exact ⟨offset + 3, unescape_escape b offset rest⟩

theorem unescape_bytes (bytes : Bytes) (offset : Nat) :
    unescape offset (bytes.flatMap byteChars) = .ok bytes := by
  induction bytes generalizing offset with
  | nil => rfl
  | cons b bytes ih =>
    obtain ⟨next, h⟩ := unescape_byteChars b offset (bytes.flatMap byteChars)
    rw [List.flatMap_cons, h, ih]
    rfl

theorem componentChars_eq (c : Component) :
    componentChars c =
      ((if allDots c then [dot, dot, dot] else []) ++ c).flatMap byteChars := by
  unfold componentChars
  split <;> rw [List.flatMap_append] <;> rfl

theorem allDots_dots (c : Component) (h : allDots c = true) :
    allDots ([dot, dot, dot] ++ c) = true := by
  simpa [allDots] using h

theorem readComponent_componentChars (c : Component) (offset : Nat) :
    readComponent offset (componentChars c) = .ok c := by
  unfold readComponent
  rw [componentChars_eq, unescape_bytes]
  dsimp only
  cases h : allDots c with
  | true =>
    rw [if_pos rfl, if_pos (allDots_dots c h), if_neg (by simp)]
    rfl
  | false =>
    rw [if_neg Bool.false_ne_true, List.nil_append, h, if_neg Bool.false_ne_true]

theorem componentChars_ne_nil (c : Component) : componentChars c ≠ [] := by
  cases c with
  | nil => decide
  | cons b c =>
    have hb : byteChars b ≠ [] := by
      unfold byteChars
      split <;> exact List.cons_ne_nil _ _
    simp [componentChars, hb]

theorem slash_not_mem_byteChars (b : UInt8) : '/' ∉ byteChars b := by
  unfold byteChars
  split
  case isTrue h =>
    obtain ⟨hascii, _, hslash⟩ := isUnreserved_bounds h
    rw [List.mem_singleton]
    exact fun he => hslash (by rw [← toNat_ascii b.toNat hascii, ← he])
  case isFalse =>
    have hb := b.toNat_lt
    have hhi := Bytes.upperHexDigit_ne_slash (b.toNat / 16) (by omega)
    have hlo := Bytes.upperHexDigit_ne_slash (b.toNat % 16) (by omega)
    simp [hhi.symm, hlo.symm]

theorem slash_not_mem_componentChars (c : Component) : '/' ∉ componentChars c := by
  rw [componentChars_eq, List.mem_flatMap]
  rintro ⟨b, _, hb⟩
  exact slash_not_mem_byteChars b hb

theorem segments_of_slash_not_mem {s : List Char} (hs : '/' ∉ s) : segments s = [s] := by
  induction s with
  | nil => rfl
  | cons c s ih =>
    obtain ⟨hc, hs⟩ := not_or.1 (mt List.mem_cons.2 hs)
    rw [segments, if_neg (Ne.symm hc), ih hs]

theorem segments_append_slash {s : List Char} (hs : '/' ∉ s) (rest : List Char) :
    segments (s ++ '/' :: rest) = s :: segments rest := by
  induction s with
  | nil => rfl
  | cons c s ih =>
    obtain ⟨hc, hs⟩ := not_or.1 (mt List.mem_cons.2 hs)
    rw [List.cons_append, segments, if_neg (Ne.symm hc), ih hs]

theorem segments_components (c : Component) (cs : List Component) :
    segments (componentChars c ++ cs.flatMap fun c => '/' :: componentChars c) =
      (c :: cs).map componentChars := by
  induction cs generalizing c with
  | nil =>
    rw [List.flatMap_nil, List.append_nil]
    exact segments_of_slash_not_mem (slash_not_mem_componentChars c)
  | cons d cs ih =>
    rw [List.flatMap_cons, List.cons_append,
      segments_append_slash (slash_not_mem_componentChars c), ih]
    rfl

theorem readComponents_map_componentChars (cs : List Component) (offset : Nat) :
    readComponents offset (cs.map componentChars) = .ok cs := by
  induction cs generalizing offset with
  | nil => rfl
  | cons c cs ih =>
    have hc : (componentChars c).isEmpty = false :=
      List.isEmpty_eq_false_iff.2 (componentChars_ne_nil c)
    rw [List.map_cons, readComponents, hc, if_neg Bool.false_ne_true,
      readComponent_componentChars, ih]
    rfl

theorem readPath_nameChars (n : Name) : readPath (nameChars n) = .ok n := by
  obtain ⟨components⟩ := n
  cases components with
  | nil => rfl
  | cons c cs =>
    change Name.mk <$> readComponents 1
      (segments (componentChars c ++ cs.flatMap fun c => '/' :: componentChars c)) = _
    rw [segments_components, readComponents_map_componentChars]
    rfl

theorem withoutScheme_nameChars (n : Name) : withoutScheme (nameChars n) = nameChars n := by
  obtain ⟨components⟩ := n
  cases components <;> rfl

end Uri

namespace Name

/-- Reading the text of a name gives the name, whatever bytes its components hold, so no other
name has that text. -/
theorem uri_round_trips :
    (∀ n : Name, ofUri n.toUri = .ok n) ∧ Function.Injective toUri := by
  have hread (n : Name) : ofUri n.toUri = .ok n := by
    unfold ofUri toUri
    rw [String.toList_ofList, Uri.withoutScheme_nameChars, Uri.readPath_nameChars]
  refine ⟨hread, fun n m h => ?_⟩
  have hm := hread m
  rw [← h, hread n] at hm
  exact Except.ok.inj hm

example : (⟨[[46, 46], [], [37, 47, 0xff, 0x61]]⟩ : Name).toUri = "/...../.../%25%2F%FFa" := by
  decide

end Name

end NamedContent
