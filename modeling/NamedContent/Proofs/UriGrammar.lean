import Mathlib.Data.List.Forall2
import NamedContent.Proofs.UriSegments

/-!
The texts that are URIs of names, and what is said of the others. After the scheme, if it is
there, a text begins with a slash, and what stands between slashes spells a component, or is empty
and passed over. The name lists what these segments spell. A text that fails does so for its first
segment that cannot be read, and a position in it counts bytes from behind the scheme.
-/

namespace NamedContent

namespace Uri

section Segments

variable {start : Nat} {segment : List Char} {segs : List (List Char)} {cs : List Component}
  {fault : UriFault}

def named (segs : List (List Char)) : List (List Char) := segs.filter fun s => !s.isEmpty

def width : List (List Char) → Nat
  | [] => 0
  | segment :: segs => (utf8 segment).length + 1 + width segs

theorem utf8Length_eq (s : List Char) : utf8Length s = (utf8 s).length := by
  induction s with
  | nil => rfl
  | cons c s ih =>
    rw [utf8Length, ih, utf8_cons, List.length_append, String.length_utf8EncodeChar]

theorem named_cons (hs : segment ≠ []) : named (segment :: segs) = segment :: named segs :=
  List.filter_cons_of_pos (by simpa using hs)

theorem readComponents_ok {c : Component} (hs : segment ≠ [])
    (hc : readComponent start segment = .ok c) :
    readComponents start (segment :: segs) =
      (c :: ·) <$> readComponents (start + ((utf8 segment).length + 1)) segs := by
  rw [readComponents, if_neg (by simpa using hs), utf8Length_eq, Nat.add_assoc, hc]
  rfl

theorem readComponents_error (hs : segment ≠ [])
    (hfault : readComponent start segment = .error fault) :
    readComponents start (segment :: segs) = .error fault := by
  rw [readComponents, if_neg (by simpa using hs), hfault]
  rfl

theorem readComponents_eq_ok_iff :
    readComponents start segs = .ok cs ↔ List.Forall₂ Spells (named segs) cs := by
  induction segs generalizing start cs with
  | nil =>
    rw [readComponents, Except.ok.injEq, named, List.filter_nil, List.forall₂_nil_left_iff]
    exact eq_comm
  | cons segment segs ih =>
    by_cases hs : segment = []
    · subst hs
      exact ih
    · rw [named_cons hs]
      rcases readComponent_cases hs start with ⟨c, hread, hspells⟩ | ⟨other, hread, hoffends⟩
      · rw [readComponents_ok hs hread, List.forall₂_cons_left_iff]
        constructor
        · intro h
          cases hrest : readComponents (start + ((utf8 segment).length + 1)) segs with
          | error other =>
            rw [hrest] at h
            cases h
          | ok ds =>
            rw [hrest] at h
            obtain rfl := Except.ok.inj h
            exact ⟨c, ds, hspells, ih.1 hrest, rfl⟩
        · rintro ⟨d, ds, hd, hds, rfl⟩
          rw [hspells.unique hd, ih.2 hds]
          rfl
      · rw [readComponents_error hs hread, List.forall₂_cons_left_iff]
        refine iff_of_false (by simp) ?_
        rintro ⟨d, ds, hd, -, -⟩
        exact hoffends.not_acceptable hd.acceptable

theorem exists_forall₂_spells_iff : (∃ cs, List.Forall₂ Spells (named segs) cs) ↔
    ∀ s ∈ segs, s ≠ [] → Acceptable s := by
  induction segs with
  | nil => exact iff_of_true ⟨[], .nil⟩ nofun
  | cons segment segs ih =>
    rw [List.forall_mem_cons, ← ih]
    by_cases hs : segment = []
    · subst hs
      exact (and_iff_right fun h => absurd rfl h).symm
    · rw [named_cons hs, forall_prop_of_true hs, ← exists_spells_iff hs]
      constructor
      · rintro ⟨cs, h⟩
        obtain ⟨c, rest, hc, hrest, -⟩ := List.forall₂_cons_left_iff.1 h
        exact ⟨⟨c, hc⟩, rest, hrest⟩
      · rintro ⟨⟨c, hc⟩, rest, hrest⟩
        exact ⟨c :: rest, .cons hc hrest⟩

/-- The fault is that of the first of the segments to offend, the first of them all beginning at
byte `start`. -/
def Fails (start : Nat) (segs : List (List Char)) (fault : UriFault) : Prop :=
  ∃ before segment after, segs = before ++ segment :: after ∧ (∀ s ∈ before, Acceptable s) ∧
    Offends (start + width before) segment fault

theorem fails_cons_of_acceptable (hs : Acceptable segment) :
    Fails start (segment :: segs) fault ↔
      Fails (start + ((utf8 segment).length + 1)) segs fault := by
  constructor
  · rintro ⟨before, other, after, hsplit, hbefore, hoffends⟩
    cases before with
    | nil =>
      obtain ⟨rfl, -⟩ := List.cons.inj hsplit
      exact absurd hs hoffends.not_acceptable
    | cons s before =>
      obtain ⟨rfl, rfl⟩ := List.cons.inj hsplit
      refine ⟨before, other, after, rfl, fun s h => hbefore s (List.mem_cons_of_mem _ h), ?_⟩
      simpa [width, Nat.add_assoc] using hoffends
  · rintro ⟨before, other, after, rfl, hbefore, hoffends⟩
    refine ⟨segment :: before, other, after, rfl, ?_, ?_⟩
    · rintro s (_ | ⟨_, h⟩)
      · exact hs
      · exact hbefore s h
    · simpa [width, Nat.add_assoc] using hoffends

theorem fails_cons_of_not_acceptable (hs : ¬ Acceptable segment) :
    Fails start (segment :: segs) fault ↔ Offends start segment fault := by
  constructor
  · rintro ⟨before, other, after, hsplit, hbefore, hoffends⟩
    cases before with
    | nil =>
      obtain ⟨rfl, -⟩ := List.cons.inj hsplit
      exact hoffends
    | cons s before =>
      obtain ⟨rfl, -⟩ := List.cons.inj hsplit
      exact absurd (hbefore segment List.mem_cons_self) hs
  · exact fun h => ⟨[], segment, segs, rfl, by simp, h⟩

theorem readComponents_eq_error_iff :
    readComponents start segs = .error fault ↔ Fails start segs fault := by
  induction segs generalizing start with
  | nil =>
    refine iff_of_false nofun ?_
    rintro ⟨before, segment, after, h, -⟩
    cases before <;> cases h
  | cons segment segs ih =>
    by_cases hs : segment = []
    · subst hs
      exact ih.trans (fails_cons_of_acceptable acceptable_nil).symm
    · rcases readComponent_cases hs start with ⟨c, hread, hspells⟩ | ⟨other, hread, hoffends⟩
      · rw [readComponents_ok hs hread, fails_cons_of_acceptable hspells.acceptable, ← ih]
        cases readComponents (start + ((utf8 segment).length + 1)) segs <;> simp
      · rw [readComponents_error hs hread, fails_cons_of_not_acceptable hoffends.not_acceptable]
        exact ⟨fun h => Except.error.inj h ▸ hoffends, fun h => congrArg _ (hoffends.unique h)⟩

end Segments

section Paths

variable {text path front segment back : List Char} {fault : UriFault}

theorem segments_eq_splitOn (text : List Char) : segments text = text.splitOn '/' := by
  induction text with
  | nil => rfl
  | cons c text ih =>
    rw [segments, List.splitOn_cons_eq_if_modifyHead, ih]
    by_cases hc : c = '/'
    · simp [hc]
    · rw [if_neg hc, if_neg (by simpa using hc)]
      obtain ⟨s, ss, hsplit⟩ := List.exists_cons_of_ne_nil (List.splitOn_ne_nil '/' text)
      rw [hsplit]
      rfl

theorem exists_piece (text : List Char) : ∃ segment back, text = segment ++ back ∧
    '/' ∉ segment ∧ ∀ c ∈ back.head?, c = '/' := by
  induction text with
  | nil => exact ⟨[], [], rfl, by simp, by simp⟩
  | cons c text ih =>
    by_cases hc : c = '/'
    · exact ⟨[], c :: text, rfl, by simp, by simp [hc]⟩
    · obtain ⟨segment, back, rfl, hslash, hback⟩ := ih
      exact ⟨c :: segment, back, rfl, by simp [hslash, Ne.symm hc], hback⟩

theorem splitOn_piece (hslash : '/' ∉ segment) (hback : ∀ c ∈ back.head?, c = '/') :
    ∃ after, (segment ++ back).splitOn '/' = segment :: after ∧
      ∀ s ss, after = s :: ss → ∃ rest, back = '/' :: rest ∧ rest.splitOn '/' = after := by
  cases back with
  | nil =>
    refine ⟨[], ?_, nofun⟩
    rw [List.append_nil, List.splitOn_eq_singleton hslash]
  | cons c rest =>
    obtain rfl := hback c rfl
    exact ⟨rest.splitOn '/', List.splitOn_append_cons_self_of_not_mem hslash rest,
      fun _ _ _ => ⟨rest, rfl, rfl⟩⟩

theorem eq_append_of_splitOn {s t : List Char} {others : List (List Char)}
    (h : text.splitOn '/' = s :: t :: others) :
    ∃ rest, text = s ++ '/' :: rest ∧ '/' ∉ s ∧ rest.splitOn '/' = t :: others := by
  obtain ⟨first, back, rfl, hfirst, hback⟩ := exists_piece text
  obtain ⟨after, hsplit, hafter⟩ := splitOn_piece hfirst hback
  obtain ⟨rfl, rfl⟩ := List.cons.inj (hsplit.symm.trans h)
  obtain ⟨rest, rfl, hrest⟩ := hafter _ _ rfl
  exact ⟨rest, rfl, hfirst, hrest⟩

theorem exists_cut_of_splitOn {s : List Char} {before after : List (List Char)}
    (h : text.splitOn '/' = s :: (before ++ segment :: after)) :
    ∃ front back, text = front ++ '/' :: (segment ++ back) ∧ '/' ∉ segment ∧
      (∀ c ∈ back.head?, c = '/') ∧ front.splitOn '/' = s :: before := by
  induction before generalizing text s with
  | nil =>
    obtain ⟨rest, rfl, hs, hrest⟩ := eq_append_of_splitOn h
    obtain ⟨piece, back, rfl, hpiece, hback⟩ := exists_piece rest
    obtain ⟨more, hsplit, -⟩ := splitOn_piece hpiece hback
    obtain ⟨rfl, -⟩ := List.cons.inj (hsplit.symm.trans hrest)
    exact ⟨s, back, rfl, hpiece, hback, List.splitOn_eq_singleton hs⟩
  | cons t before ih =>
    obtain ⟨rest, rfl, hs, hrest⟩ := eq_append_of_splitOn h
    obtain ⟨front, back, rfl, hslash, hback, hfront⟩ := ih hrest
    refine ⟨s ++ '/' :: front, back, by simp, hslash, hback, ?_⟩
    rw [List.splitOn_append_cons_self_of_not_mem hs, hfront]

theorem width_splitOn (text : List Char) :
    width (text.splitOn '/') = (utf8 (text ++ ['/'])).length := by
  rw [utf8_append, List.length_append]
  change _ = _ + 1
  induction text with
  | nil => rfl
  | cons c text ih =>
    rw [List.splitOn_cons_eq_if_modifyHead, utf8_cons, List.length_append]
    by_cases hc : c = '/'
    · subst hc
      simp only [beq_self_eq_true, if_true]
      change 1 + width (text.splitOn '/') = 1 + (utf8 text).length + 1
      omega
    · rw [if_neg (by simpa using hc)]
      obtain ⟨s, ss, hsplit⟩ := List.exists_cons_of_ne_nil (List.splitOn_ne_nil '/' text)
      rw [hsplit] at ih ⊢
      simp only [width, List.modifyHead_cons, utf8_cons, List.length_append] at ih ⊢
      omega

theorem fails_splitOn_iff (hpath : path.head? = some '/') :
    Fails 0 (path.splitOn '/') fault ↔ FirstOffence path fault := by
  constructor
  · rintro ⟨before, segment, after, hsplit, hbefore, hoffends⟩
    obtain ⟨rest, rfl⟩ : ∃ rest, path = '/' :: rest := by
      cases path with
      | nil => cases hpath
      | cons c rest => exact ⟨rest, by rw [Option.some.inj hpath]⟩
    cases before with
    | nil =>
      rw [List.splitOn_cons_eq_if_modifyHead, if_pos (by simp)] at hsplit
      obtain ⟨rfl, -⟩ := List.cons.inj hsplit
      exact absurd acceptable_nil hoffends.not_acceptable
    | cons s before =>
      obtain ⟨front, back, hcut, hslash, hback, hfront⟩ := exists_cut_of_splitOn hsplit
      refine ⟨front, segment, back, hcut, hslash, hback, hfront ▸ hbefore, ?_⟩
      rwa [← width_splitOn, hfront, ← Nat.zero_add (width _)]
  · rintro ⟨front, segment, back, rfl, hslash, hback, hbefore, hoffends⟩
    obtain ⟨after, hsplit, -⟩ := splitOn_piece hslash hback
    refine ⟨front.splitOn '/', segment, after, ?_, hbefore, ?_⟩
    · rw [List.splitOn_append_cons_self, hsplit]
    · rwa [width_splitOn, Nat.zero_add]

theorem readPath_of_head? (hpath : path.head? = some '/') :
    readPath path = Name.mk <$> readComponents 0 (path.splitOn '/') := by
  cases path with
  | nil => cases hpath
  | cons c rest =>
    obtain rfl : c = '/' := Option.some.inj hpath
    rw [List.splitOn_cons_eq_if_modifyHead, if_pos (by simp), ← segments_eq_splitOn]
    rfl

theorem readPath_of_head?_ne (hpath : path.head? ≠ some '/') :
    readPath path = .error .missingLeadingSlash := by
  unfold readPath
  split
  · exact absurd rfl hpath
  · rfl

theorem isPath_withoutScheme (text : List Char) : IsPath text (withoutScheme text) := by
  unfold withoutScheme
  split
  · rename_i hscheme
    obtain ⟨path, rfl⟩ := List.isPrefixOf_iff_prefix.1 hscheme
    rw [List.drop_left]
    exact .inl rfl
  · rename_i hscheme
    exact .inr ⟨mt List.isPrefixOf_iff_prefix.2 hscheme, rfl⟩

theorem readPath_eq_ok_iff {n : Name} : readPath path = .ok n ↔ path.head? = some '/' ∧
    List.Forall₂ Spells (named (path.splitOn '/')) n.components := by
  by_cases hpath : path.head? = some '/'
  · obtain ⟨cs⟩ := n
    have hread : readComponents 0 (path.splitOn '/') = .ok cs ↔ _ := readComponents_eq_ok_iff
    rw [readPath_of_head? hpath, and_iff_right hpath, ← hread]
    cases readComponents 0 (path.splitOn '/') <;> simp
  · rw [readPath_of_head?_ne hpath]
    exact iff_of_false nofun fun h => hpath h.1

theorem readPath_eq_error_iff : readPath path = .error fault ↔
    path.head? ≠ some '/' ∧ fault = .missingLeadingSlash ∨
      path.head? = some '/' ∧ FirstOffence path fault := by
  by_cases hpath : path.head? = some '/'
  · rw [readPath_of_head? hpath, ← fails_splitOn_iff hpath, ← readComponents_eq_error_iff]
    simp only [hpath, ne_eq, not_true_eq_false, false_and, true_and, false_or]
    cases readComponents 0 (path.splitOn '/') <;> simp
  · rw [readPath_of_head?_ne hpath]
    simp [hpath, eq_comm]

end Paths

end Uri

namespace Name

open Uri

theorem ofUri_eq_ok_iff {uri : String} {n : Name} :
    ofUri uri = .ok n ↔ readPath (withoutScheme uri.toList) = .ok n := by
  unfold ofUri
  cases readPath (withoutScheme uri.toList) <;> simp

theorem ofUri_eq_error_iff {uri : String} {e : UriError} : ofUri uri = .error e ↔
    e.uri = uri ∧ readPath (withoutScheme uri.toList) = .error e.fault := by
  unfold ofUri
  cases readPath (withoutScheme uri.toList) with
  | ok n => simp
  | error fault =>
    obtain ⟨text, other⟩ := e
    simp [eq_comm]

/-- A text is the URI of a name just if its path begins with a slash and each segment is empty or
acceptable. The name lists what the segments spell. Any other text is refused, for want of the
slash or for its first offending segment. -/
theorem ofUri_exact (uri : String) : ∃ path, IsPath uri.toList path ∧
    ((∃ n, ofUri uri = .ok n) ↔
      path.head? = some '/' ∧ ∀ s ∈ path.splitOn '/', s ≠ [] → Acceptable s) ∧
    (∀ n, ofUri uri = .ok n ↔ path.head? = some '/' ∧
      List.Forall₂ Spells (named (path.splitOn '/')) n.components) ∧
    ∀ e, ofUri uri = .error e ↔ e.uri = uri ∧
      (path.head? ≠ some '/' ∧ e.fault = .missingLeadingSlash ∨
        path.head? = some '/' ∧ FirstOffence path e.fault) := by
  have hok (n : Name) : ofUri uri = .ok n ↔ _ := ofUri_eq_ok_iff.trans readPath_eq_ok_iff
  refine ⟨withoutScheme uri.toList, isPath_withoutScheme _, ?_, hok, fun e => ?_⟩
  · rw [← exists_forall₂_spells_iff, ← exists_and_left]
    constructor
    · rintro ⟨n, h⟩
      exact ⟨n.components, (hok n).1 h⟩
    · rintro ⟨cs, h⟩
      exact ⟨⟨cs⟩, (hok ⟨cs⟩).2 h⟩
  · rw [ofUri_eq_error_iff, readPath_eq_error_iff]

example : ofUri "ccnx:/é/%4/1" = .error ⟨"ccnx:/é/%4/1", .invalidEscape 4⟩ := by decide +kernel

end Name

end NamedContent
