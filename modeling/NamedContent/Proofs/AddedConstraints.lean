import NamedContent.Proofs.ContentMatching

/-!
Interests with one constraint more. Of the four constraints that an Interest may lack, a
publisher, an exclude filter and an order are conditions of their own, and so is a count of
components, except for one value. A count of nothing further says that the name ends in a
digest, which the prefix test then passes over. So it is a constraint of another kind: it lets
in contents whose name is the Interest's less the last component, whatever that component is,
where without it the digest itself had to be there.
-/

namespace NamedContent

namespace Name

variable {n other : Name}

theorem agreesUpTo_comm (k : Nat) : n.agreesUpTo other k = other.agreesUpTo n k := by
  rw [agreesUpTo, agreesUpTo, Bool.and_comm (decide (k ≤ n.length)),
    BEq.comm (a := n.components.take k)]

theorem isPrefixOf_iff_eq (hlength : n.length = other.length) :
    n.isPrefixOf other = true ↔ n = other := by
  rw [isPrefixOf_iff]
  constructor
  · intro h
    obtain ⟨components⟩ := n
    obtain ⟨components'⟩ := other
    exact congrArg Name.mk (h.eq_of_length hlength)
  · rintro rfl
    exact List.prefix_rfl

theorem exists_eq_append (h : n.isPrefixOf other = true) (hlength : other.length = n.length + 1) :
    ∃ x, other = n.append x := by
  obtain ⟨rest, hrest⟩ := isPrefixOf_iff.1 h
  have hrests : rest.length = 1 := by
    have hcount := congrArg List.length hrest
    rw [List.length_append] at hcount
    change _ = other.length at hcount
    rw [hlength, length] at hcount
    omega
  obtain ⟨x, rfl⟩ := List.length_eq_one_iff.1 hrests
  refine ⟨x, ?_⟩
  rw [append, hrest]

end Name

inductive Constraint where
  | additional (n : UInt64)
  | publisher (required : PublisherId)
  | exclude (f : ExcludeFilter)
  | order (preference : OrderPreference)

namespace Constraint

def AbsentIn (i : Interest) : Constraint → Prop
  | .additional _ => i.additional = none
  | .publisher _ => i.publisher = none
  | .exclude _ => i.exclude = none
  | .order _ => i.order = none

/-- With this constraint the Interest says that its name ends in a digest: nothing is to follow
its name, and it shares all of it. -/
def EndsInDigest (i : Interest) (k : Constraint) : Prop :=
  k = .additional 0 ∧ ∀ n, i.prefixCount = some n → n.toNat = i.name.length

end Constraint

namespace Interest

def constrain (i : Interest) : Constraint → Interest
  | .additional n => { i with additional := some n }
  | .publisher required => { i with publisher := some required }
  | .exclude f => { i with exclude := some f }
  | .order preference => { i with order := some preference }

variable {i : Interest} {k : Constraint} {c : Content} {trust : Trust}

theorem meets_of_constrain (habsent : k.AbsentIn i) (h : (i.constrain k).Meets c)
    (hbegins : i.isPrefixOf c.fullName = true) : i.Meets c := by
  refine ⟨isPrefixOf_fullName_iff.1 hbegins, ?_, ?_, ?_⟩
  · intro n hn
    cases k with
    | additional m => exact absurd (habsent.symm.trans hn) nofun
    | _ => exact h.goesOn n hn
  · intro horder
    cases k with
    | order preference => exact absurd habsent horder
    | _ => exact h.sorts horder
  · intro f hf
    cases k with
    | exclude g => exact absurd (habsent.symm.trans hf) nofun
    | _ => exact h.admits f hf

theorem publisherMet_of_constrain (habsent : k.AbsentIn i)
    (h : (i.constrain k).PublisherMet trust c) : i.PublisherMet trust c := by
  intro required hrequired
  cases k with
  | publisher other => exact absurd (habsent.symm.trans hrequired) nofun
  | _ => exact h required hrequired

theorem begins_of_constrain (hdigest : ¬ k.EndsInDigest i) (h : (i.constrain k).Meets c) :
    i.isPrefixOf c.fullName = true := by
  rw [isPrefixOf_fullName_iff]
  cases k with
  | additional n =>
    refine .inl (h.begins.resolve_right ?_)
    rintro ⟨hn, hshared, -⟩
    obtain rfl : n = 0 := Option.some.inj hn
    exact hdigest ⟨rfl, hshared⟩
  | _ => exact h.begins

theorem accepts_of_constrain (habsent : k.AbsentIn i) (hdigest : ¬ k.EndsInDigest i)
    (h : (i.constrain k).accepts trust c = true) : i.accepts trust c = true := by
  obtain ⟨hmeets, hpublisher⟩ := accepts_iff_meets.1 h
  exact accepts_iff_meets.2
    ⟨meets_of_constrain habsent hmeets (begins_of_constrain hdigest hmeets),
      publisherMet_of_constrain habsent hpublisher⟩

theorem sharedCount_of_endsInDigest (hdigest : k.EndsInDigest i) :
    i.sharedCount = i.name.length := by
  rw [sharedCount]
  split
  · rename_i n hn
    exact hdigest.2 n hn
  · rfl

theorem name_of_endsInDigest (hdigest : k.EndsInDigest i) (h : (i.constrain k).Meets c) :
    c.fullName.length = i.name.length ∧ ∃ x, i.name = c.name.append x := by
  have hshared := sharedCount_of_endsInDigest hdigest
  obtain ⟨rfl, -⟩ := hdigest
  have hlength : c.fullName.length = i.name.length := by
    have hcount : c.fullName.length = i.sharedCount + 0 := h.goesOn 0 rfl
    omega
  have hshort : i.name.length = c.name.length + 1 := by
    rw [← hlength, Content.length_fullName]
  have hagrees : i.name.agreesUpTo c.fullName c.name.length = true := by
    have hcount : i.sharedCount - 1 = c.name.length := by omega
    rw [← hcount]
    rcases h.begins with hbegins | ⟨-, -, hbegins⟩
    · exact agreesUpTo_of_le (Nat.sub_le _ _) hbegins
    · exact hbegins
  rw [agreesUpTo_fullName (Nat.le_refl _), Name.agreesUpTo_comm] at hagrees
  exact ⟨hlength, Name.exists_eq_append hagrees hshort⟩

theorem accepts_iff_of_endsInDigest (habsent : k.AbsentIn i) (hdigest : k.EndsInDigest i)
    (h : (i.constrain k).accepts trust c = true) :
    i.accepts trust c = true ↔ i.name = c.fullName := by
  obtain ⟨hmeets, hpublisher⟩ := accepts_iff_meets.1 h
  obtain ⟨hlength, -⟩ := name_of_endsInDigest hdigest hmeets
  have hshared := sharedCount_of_endsInDigest hdigest
  constructor
  · intro haccepts
    have hbegins := (accepts_iff_meets.1 haccepts).1.begins
    have hnone : i.additional = none := by
      obtain ⟨rfl, -⟩ := hdigest
      exact habsent
    have hagrees := hbegins.resolve_right fun hcase => absurd (hnone.symm.trans hcase.1) nofun
    rw [hshared] at hagrees
    exact (Name.isPrefixOf_iff_eq hlength.symm).1 hagrees
  · intro hname
    have hbegins : i.name.agreesUpTo c.fullName i.sharedCount = true := by
      rw [hshared]
      exact (Name.isPrefixOf_iff_eq hlength.symm).2 hname
    exact accepts_iff_meets.2
      ⟨meets_of_constrain habsent hmeets (isPrefixOf_fullName_iff.2 (.inl hbegins)),
        publisherMet_of_constrain habsent hpublisher⟩

/-- One constraint more never widens an Interest, unless it says that the name ends in a digest.
Then what it lets in has the Interest's name less its last component, and is accepted without the
constraint just if that component is its digest. -/
theorem constraint_narrows (habsent : k.AbsentIn i)
    (h : (i.constrain k).accepts trust c = true) :
    (¬ k.EndsInDigest i → i.accepts trust c = true) ∧
      (k.EndsInDigest i → (∃ x, i.name = c.name.append x) ∧
        (i.accepts trust c = true ↔ i.name = c.fullName)) :=
  ⟨fun hdigest => accepts_of_constrain habsent hdigest h,
    fun hdigest => ⟨(name_of_endsInDigest hdigest (accepts_iff_meets.1 h).1).2,
      accepts_iff_of_endsInDigest habsent hdigest h⟩⟩

def child : Interest := { name := ⟨[[0x61], [0]]⟩ }

def parent : Content := .unsigned ⟨[[0x61]]⟩ []

theorem child_accepts_parent_as_digest :
    (child.constrain (.additional 0)).accepts .exactKey parent = true := by
  have hlength : parent.fullName.length = 2 := Content.length_fullName parent
  refine accepts_iff_meets.2 ⟨⟨.inr ⟨rfl, nofun, by decide⟩, ?_, nofun, nofun⟩, nofun⟩
  rintro n hn
  obtain rfl : 0 = n := Option.some.inj hn
  exact hlength

theorem child_refuses_parent : child.accepts .exactKey parent = false := by
  rw [← Bool.not_eq_true, accepts_iff_meets]
  rintro ⟨hmeets, -⟩
  have hagrees := hmeets.begins.resolve_right fun hcase => absurd hcase.1 nofun
  have hlength : child.name.length = parent.fullName.length := rfl
  have hname := (Name.isPrefixOf_iff_eq hlength).1 hagrees
  have hdigest : [0] = parent.digest.bytes := by
    simpa [child, parent, Content.fullName, Content.unsigned, Name.append] using hname
  have hbytes := congrArg List.length hdigest
  rw [parent.digest.length_bytes] at hbytes
  cases hbytes

theorem constraint_narrows_sample :
    (Constraint.additional 0).AbsentIn child ∧
      (child.constrain (.additional 0)).accepts .exactKey parent = true ∧
        ∃ x, child.name = parent.name.append x :=
  ⟨rfl, child_accepts_parent_as_digest,
    ((constraint_narrows (i := child) (k := .additional 0) rfl child_accepts_parent_as_digest).2
      ⟨rfl, nofun⟩).1⟩

/-- So a count of nothing further lets in a content that the Interest alone refuses. -/
theorem count_of_nothing_widens :
    (Constraint.additional 0).AbsentIn child ∧
      (child.constrain (.additional 0)).accepts .exactKey parent = true ∧
        child.accepts .exactKey parent = false :=
  ⟨rfl, child_accepts_parent_as_digest, child_refuses_parent⟩

end Interest

end NamedContent
