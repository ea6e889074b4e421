import NamedContent.Proofs.PercentEscapes

/-!
The segments of URIs of names. What stands between two slashes decodes to something other than one
dot or two, and spells that, less three dots where it is all dots; or it offends, by an escape that
cannot be read or by being one dot or two.
-/

namespace NamedContent

namespace Uri

/-- The path is the text behind the scheme, or all of it where no scheme stands in front. -/
def IsPath (text path : List Char) : Prop :=
  text = scheme ++ path ∨ ¬ scheme <+: text ∧ path = text

def Relative (segment : List Char) : Prop :=
  Decodes (utf8 segment) [dot] ∨ Decodes (utf8 segment) [dot, dot]

structure Acceptable (segment : List Char) : Prop where
  escapes : ∀ k, ¬ BadAt (utf8 segment) k
  not_relative : ¬ Relative segment

inductive Spells (segment : List Char) : Component → Prop
  | plain {c : Component} (h : Decodes (utf8 segment) c) (hc : ∃ b ∈ c, b ≠ dot) :
      Spells segment c
  | dots {c : Component} (h : Decodes (utf8 segment) ([dot, dot, dot] ++ c))
      (hc : ∀ b ∈ c, b = dot) : Spells segment c

/-- What is wrong with a segment that begins at byte `start`. -/
inductive Offends (start : Nat) (segment : List Char) : UriFault → Prop
  | escape {k : Nat} (h : FirstBad (utf8 segment) k) :
      Offends start segment (.invalidEscape (start + k))
  | relative (h : Relative segment) :
      Offends start segment (.relativeComponent (String.ofList segment))

def FirstOffence (path : List Char) (fault : UriFault) : Prop :=
  ∃ front segment back, path = front ++ '/' :: (segment ++ back) ∧ '/' ∉ segment ∧
    (∀ c ∈ back.head?, c = '/') ∧ (∀ s ∈ front.splitOn '/', Acceptable s) ∧
    Offends (utf8 (front ++ ['/'])).length segment fault

section Segment

variable {segment : List Char} {start : Nat} {c : Component} {fault : UriFault} {bytes : Bytes}

theorem allDots_eq_true_iff : allDots c = true ↔ ∀ b ∈ c, b = dot := by
  simp [allDots]

theorem eq_dots_append (hdots : allDots c = true) (hlength : ¬ c.length < 3) :
    c = [dot, dot, dot] ++ c.drop 3 := by
  rw [allDots_eq_true_iff] at hdots
  match c with
  | x :: y :: z :: rest =>
    rw [hdots x (by simp), hdots y (by simp), hdots z (by simp)]
    rfl
  | [] => simp at hlength
  | [_] => simp at hlength
  | [_, _] => simp at hlength

theorem eq_dot_or_dots (hdots : allDots c = true) (hlength : c.length < 3) (hne : c ≠ []) :
    c = [dot] ∨ c = [dot, dot] := by
  rw [allDots_eq_true_iff] at hdots
  match c with
  | [] => exact absurd rfl hne
  | [x] =>
    rw [hdots x (by simp)]
    exact .inl rfl
  | [x, y] =>
    rw [hdots x (by simp), hdots y (by simp)]
    exact .inr rfl
  | x :: y :: z :: rest =>
    simp only [List.length_cons] at hlength
    omega

theorem utf8_ne_nil (hs : segment ≠ []) : utf8 segment ≠ [] := by
  obtain ⟨c, s, rfl⟩ := List.exists_cons_of_ne_nil hs
  rw [utf8_cons]
  exact fun h => utf8EncodeChar_ne_nil c (List.append_eq_nil_iff.1 h).1

theorem Decodes.ne_nil (h : Decodes (utf8 segment) bytes) (hs : segment ≠ []) : bytes ≠ [] := by
  rintro rfl
  have hnil : utf8 segment = [] := by
    generalize utf8 segment = s at h
    cases h
    rfl
  exact utf8_ne_nil hs hnil

theorem acceptable_nil : Acceptable [] where
  escapes k := by simp [BadAt, utf8]
  not_relative := nofun

theorem Relative.not_badAt (h : Relative segment) (k : Nat) : ¬ BadAt (utf8 segment) k := by
  rcases h with h | h <;> exact h.not_badAt k

theorem Offends.not_acceptable (h : Offends start segment fault) : ¬ Acceptable segment := by
  intro hs
  cases h with
  | escape h => exact hs.escapes _ h.1
  | relative h => exact hs.not_relative h

theorem Spells.acceptable (h : Spells segment c) : Acceptable segment := by
  obtain ⟨bytes, hbytes, hone, htwo⟩ :
      ∃ bytes, Decodes (utf8 segment) bytes ∧ bytes ≠ [dot] ∧ bytes ≠ [dot, dot] := by
    cases h with
    | plain h hc =>
      obtain ⟨b, hb, hne⟩ := hc
      refine ⟨c, h, ?_, ?_⟩ <;> rintro rfl <;> simp [hne] at hb
    | dots h => exact ⟨_, h, by simp, by simp⟩
  refine ⟨hbytes.not_badAt, ?_⟩
  rintro (hdot | hdots)
  · exact hone (hbytes.unique hdot)
  · exact htwo (hbytes.unique hdots)

theorem readComponent_cases (hs : segment ≠ []) (start : Nat) :
    (∃ c, readComponent start segment = .ok c ∧ Spells segment c) ∨
      ∃ fault, readComponent start segment = .error fault ∧ Offends start segment fault := by
  unfold readComponent
  cases hread : unescape start segment with
  | error position =>
    obtain ⟨k, rfl, hbad⟩ := unescape_eq_error_iff.1 hread
    exact .inr ⟨_, rfl, .escape hbad⟩
  | ok bytes =>
    have hbytes := unescape_eq_ok_iff.1 hread
    dsimp only
    cases hdots : allDots bytes with
    | false =>
      have hc : ∃ b ∈ bytes, b ≠ dot := by simpa [allDots] using hdots
      exact .inl ⟨bytes, rfl, .plain hbytes hc⟩
    | true =>
      by_cases hlength : bytes.length < 3
      · rw [if_pos rfl, if_pos hlength]
        refine .inr ⟨_, rfl, .relative ?_⟩
        rcases eq_dot_or_dots hdots hlength (hbytes.ne_nil hs) with rfl | rfl
        · exact .inl hbytes
        · exact .inr hbytes
      · rw [if_pos rfl, if_neg hlength]
        refine .inl ⟨_, rfl, .dots ?_ fun b hb => ?_⟩
        · rwa [← eq_dots_append hdots hlength]
        · exact allDots_eq_true_iff.1 hdots b (List.mem_of_mem_drop hb)

theorem Spells.unique {d : Component} (h : Spells segment c) (h' : Spells segment d) : c = d := by
  cases h with
  | plain h hc =>
    cases h' with
    | plain h' => exact h.unique h'
    | dots h' hd =>
      obtain rfl := h.unique h'
      obtain ⟨b, hb, hne⟩ := hc
      exact absurd (by simpa [or_iff_left_of_imp (hd b)] using hb) hne
  | dots h hc =>
    cases h' with
    | plain h' hd =>
      obtain rfl := h.unique h'
      obtain ⟨b, hb, hne⟩ := hd
      exact absurd (by simpa [or_iff_left_of_imp (hc b)] using hb) hne
    | dots h' => exact List.append_cancel_left (h.unique h')

theorem Offends.unique {other : UriFault} (h : Offends start segment fault)
    (h' : Offends start segment other) : fault = other := by
  cases h with
  | escape h =>
    cases h' with
    | escape h' => rw [h.unique h']
    | relative h' => exact absurd h.1 (h'.not_badAt _)
  | relative h =>
    cases h' with
    | escape h' => exact absurd h'.1 (h.not_badAt _)
    | relative => rfl

theorem exists_spells_iff (hs : segment ≠ []) : (∃ c, Spells segment c) ↔ Acceptable segment := by
  constructor
  · rintro ⟨c, h⟩
    exact h.acceptable
  · intro h
    rcases readComponent_cases hs 0 with ⟨c, -, hspells⟩ | ⟨fault, -, hoffends⟩
    · exact ⟨c, hspells⟩
    · exact absurd h hoffends.not_acceptable

end Segment

end Uri

end NamedContent
