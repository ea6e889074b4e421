import Mathlib.Tactic.ByContra
import NamedContent.Proofs.AddedConstraints

/-!
Contents judged by their bare name. A content may be judged as a whole, or by its name and its
signer alone. The two ways differ just where the last component that a candidate has to share
would be the content's digest: as a whole the content is then judged by its full name, while its
bare name is too short, unless the Interest says itself that its name ends in a digest, and even
then an order refuses it, since the name begins the Interest's own. So what is accepted by its
name is accepted as a whole, and at any other length there is no difference, whatever the trust
policy answers and whether counts are numbers or words.
-/

namespace NamedContent

namespace Name

variable {a b c : Name}

theorem lt_trans (hab : a < b) (hbc : b < c) : a < c :=
  List.lt_trans (α := Component) hab hbc

theorem lt_asymm (hab : a < b) : ¬ b < a :=
  fun hba => List.lt_irrefl (α := Component) _ (lt_trans hab hba)

theorem lt_of_isPrefixOf (h : a.isPrefixOf b = true) (hlength : a.length < b.length) : a < b := by
  obtain ⟨rest, hrest⟩ := isPrefixOf_iff.1 h
  have hne : rest ≠ [] := by
    rintro rfl
    rw [List.append_nil] at hrest
    exact Nat.ne_of_lt hlength (congrArg List.length hrest)
  show a.components < b.components
  rw [← hrest]
  generalize a.components = components
  induction components with
  | nil =>
    obtain ⟨x, rest, rfl⟩ := List.exists_cons_of_ne_nil hne
    exact List.nil_lt_cons x rest
  | cons x components ih => exact List.cons_lt_cons_iff.2 (.inr ⟨rfl, ih⟩)

end Name

namespace Interest

variable {i : Interest} {c : Content} {trust : Trust}

def passes (i : Interest) (name : Name) (digestIncluded countMet : Bool) : Bool :=
  i.isPrefixOf name && countMet && i.orderMet name digestIncluded && i.excludeMet name

/-- Only by its full name is the content what the Interest may ask for: its digest is the last
component to be shared, and the Interest does not name a digest, or it asks for an order. -/
def NeedsFullName (i : Interest) (c : Content) : Prop :=
  c.name.length + 1 = i.sharedCount ∧ ¬ (i.namesDigest = true ∧ i.order = none)

instance : Decidable (i.NeedsFullName c) := inferInstanceAs (Decidable (_ ∧ _))

theorem isPrefixOf_short (h : c.name.length + 1 = i.sharedCount) :
    i.isPrefixOf c.name = true ↔ i.namesDigest = true ∧ i.isPrefixOf c.fullName = true := by
  rw [isPrefixOf, isPrefixOf]
  cases i.namesDigest with
  | false =>
    have hshort : ¬ i.sharedCount ≤ c.name.length := by omega
    simp [Name.agreesUpTo, hshort]
  | true =>
    have hle : i.sharedCount - 1 ≤ c.name.length := by omega
    simp only [if_true, true_and, agreesUpTo_fullName hle]

theorem sharedCount_of_namesDigest (hdigest : i.namesDigest = true) :
    i.sharedCount = i.name.length := by
  simp only [namesDigest, Bool.and_eq_true, beq_iff_eq] at hdigest
  exact hdigest.2

theorem orderMet_short (h : c.name.length + 1 = i.sharedCount)
    (hshared : i.isPrefixOf c.name = true) :
    i.orderMet c.name false = true ↔ i.order = none := by
  rw [orderMet_iff]
  refine ⟨fun hsorts => ?_, fun hnone hsome => absurd hnone hsome⟩
  by_contra hsome
  have hdigest := ((isPrefixOf_short h).1 hshared).1
  have hnames := sharedCount_of_namesDigest hdigest
  have hlt : c.name < i.name := by
    refine Name.lt_of_isPrefixOf ?_ (by omega)
    rw [isPrefixOf, hdigest, if_pos rfl, ← h, Nat.add_sub_cancel] at hshared
    rwa [Name.isPrefixOf, Name.agreesUpTo_comm]
  rcases hsorts hsome with hafter | ⟨hincluded, -⟩
  · exact Name.lt_asymm hlt hafter
  · cases hincluded

theorem passes_iff {name : Name} {digestIncluded countMet : Bool} :
    i.passes name digestIncluded countMet = true ↔
      i.isPrefixOf name = true ∧ countMet = true ∧ i.orderMet name digestIncluded = true ∧
        i.excludeMet name = true := by
  simp only [passes, Bool.and_eq_true, and_assoc]

theorem excludeMet_short (h : c.name.length + 1 = i.sharedCount) :
    i.excludeMet c.name = true ∧ i.excludeMet c.fullName = true := by
  have hnone : ∀ {name : Name}, name.length ≤ i.sharedCount → i.excludeMet name = true := by
    intro name hle
    rw [excludeMet_iff]
    intro f _ x hx
    rw [Name.component?, List.getElem?_eq_none hle] at hx
    cases hx
  refine ⟨hnone (by omega), hnone ?_⟩
  rw [Content.length_fullName]
  omega

theorem passes_short (h : c.name.length + 1 = i.sharedCount) (countMet : Bool) :
    i.passes c.name false countMet = true ↔
      ¬ i.NeedsFullName c ∧ i.passes c.fullName true countMet = true := by
  have hneeds : ¬ i.NeedsFullName c ↔ i.namesDigest = true ∧ i.order = none := by
    rw [NeedsFullName, and_iff_right h, not_not]
  obtain ⟨hname, hfull⟩ := excludeMet_short h
  rw [hneeds, passes_iff, passes_iff, and_iff_left hname, and_iff_left hfull]
  constructor
  · rintro ⟨hshared, hcount, horder⟩
    have hnone := (orderMet_short h hshared).1 horder
    obtain ⟨hdigest, hbegins⟩ := (isPrefixOf_short h).1 hshared
    exact ⟨⟨hdigest, hnone⟩, hbegins, hcount, orderMet_iff.2 fun hsome => absurd hnone hsome⟩
  · rintro ⟨⟨hdigest, hnone⟩, hbegins, hcount, -⟩
    have hshared := (isPrefixOf_short h).2 ⟨hdigest, hbegins⟩
    exact ⟨hshared, hcount, (orderMet_short h hshared).2 hnone⟩

theorem passes_name (i : Interest) (c : Content) (countMet : Bool) :
    i.passes c.name false countMet = (!decide (i.NeedsFullName c) &&
      i.passes (i.candidate c) (c.name.length + 1 == i.sharedCount) countMet) := by
  by_cases h : c.name.length + 1 = i.sharedCount
  · rw [Bool.eq_iff_iff, passes_short h, candidate, if_pos h, beq_iff_eq.2 h]
    simp
  · have hneeds : ¬ i.NeedsFullName c := fun hneeds => h hneeds.1
    rw [decide_eq_false hneeds, candidate, if_neg h, beq_eq_false_iff_ne.2 h]
    rfl

theorem additionalMet_candidate (i : Interest) (c : Content) :
    i.additionalMet (i.candidate c) (c.name.length + 1 == i.sharedCount) =
      i.additionalMet c.name false := by
  by_cases h : c.name.length + 1 = i.sharedCount
  · rw [candidate, if_pos h, beq_iff_eq.2 h]
    simp only [additionalMet, Content.length_fullName, if_true, Bool.false_eq_true, if_false,
      Nat.add_zero]
  · rw [candidate, if_neg h, beq_eq_false_iff_ne.2 h]

theorem additionalMetInWords_candidate (i : Interest) (c : Content) :
    i.additionalMetInWords (i.candidate c) (c.name.length + 1 == i.sharedCount) =
      i.additionalMetInWords c.name false := by
  have hdiff : i.lengthDiff c.fullName true = i.lengthDiff c.name false := by
    simp [lengthDiff]
  by_cases h : c.name.length + 1 = i.sharedCount
  · rw [candidate, if_pos h, beq_iff_eq.2 h]
    simp only [additionalMetInWords, hdiff]
  · rw [candidate, if_neg h, beq_eq_false_iff_ne.2 h]

/-- Judged by its name alone a content is refused if it needs its full name, and is judged as a
whole otherwise. -/
theorem judgeName_eq (i : Interest) (c : Content) : i.judgeName c.name c.publisher =
    if i.NeedsFullName c then .refused else i.judgeContent c := by
  have hname : i.checks c.name false = (!decide (i.NeedsFullName c) &&
      i.checks (i.candidate c) (c.name.length + 1 == i.sharedCount)) := by
    calc i.checks c.name false
      _ = i.passes c.name false (i.additionalMet c.name false) := rfl
      _ = _ := passes_name i c _
      _ = _ := by
        rw [← additionalMet_candidate]
        rfl
  rw [judgeName, judgeContent_eq_judge, judge_eq, judge_eq, hname]
  by_cases hneeds : i.NeedsFullName c
  · rw [decide_eq_true hneeds, if_pos hneeds]
    rfl
  · rw [decide_eq_false hneeds, if_neg hneeds]
    rfl

def examineName (i : Interest) (trust : Trust) (name : Name) (signer : Option Digest) :
    StateM (List (PublisherId × Digest)) Bool :=
  if !i.isPrefixOf name then pure false
  else if !i.additionalMetInWords name false then pure false
  else if !i.orderMet name false then pure false
  else if !i.excludeMet name then pure false
  else i.examinePublisher trust signer

theorem guards_eq {α : Type} {p q r t : Bool} {refused rest : α} :
    (if !p then refused else if !q then refused else if !r then refused else if !t then refused
      else rest) = if p && q && r && t then rest else refused := by
  cases p <;> cases q <;> cases r <;> cases t <;> rfl

theorem examine_eq_passes (i : Interest) (trust : Trust) (c : Content) : i.examine trust c =
    if i.passes (i.candidate c) (c.name.length + 1 == i.sharedCount)
        (i.additionalMetInWords (i.candidate c) (c.name.length + 1 == i.sharedCount)) then
      i.examinePublisher trust c.publisher
    else pure false :=
  guards_eq

theorem examineName_eq_passes (i : Interest) (trust : Trust) (name : Name)
    (signer : Option Digest) : i.examineName trust name signer =
      if i.passes name false (i.additionalMetInWords name false) then
        i.examinePublisher trust signer
      else pure false :=
  guards_eq

theorem examineName_eq (i : Interest) (trust : Trust) (c : Content) :
    i.examineName trust c.name c.publisher =
      if i.NeedsFullName c then pure false else i.examine trust c := by
  rw [examineName_eq_passes, examine_eq_passes, passes_name, additionalMetInWords_candidate]
  by_cases hneeds : i.NeedsFullName c
  · rw [decide_eq_true hneeds, if_pos hneeds]
    rfl
  · rw [decide_eq_false hneeds, if_neg hneeds]
    rfl

/-- What is accepted by its name is accepted as a whole, and unless the digest would be the last
shared component the two ways agree. They differ just where the full name is needed, and so do
the runs on words, which ask the trust policy the same otherwise. -/
theorem name_accepts_within_content (i : Interest) (trust : Trust) (c : Content) :
    (i.acceptsName trust c.name c.publisher = true → i.accepts trust c = true) ∧
      (c.name.length + 1 ≠ i.sharedCount →
        i.acceptsName trust c.name c.publisher = i.accepts trust c) ∧
      (i.acceptsName trust c.name c.publisher = true ↔
        i.accepts trust c = true ∧ ¬ i.NeedsFullName c) ∧
      i.examineName trust c.name c.publisher =
        if i.NeedsFullName c then pure false else i.examine trust c := by
  have hname : i.acceptsName trust c.name c.publisher = true ↔
      i.accepts trust c = true ∧ ¬ i.NeedsFullName c := by
    rw [acceptsName, accepts, judgeName_eq]
    by_cases hneeds : i.NeedsFullName c <;> simp [hneeds, Judgement.resolve]
  refine ⟨fun h => (hname.1 h).1, fun h => ?_, hname, examineName_eq i trust c⟩
  have hneeds : ¬ i.NeedsFullName c := fun hneeds => h hneeds.1
  rw [Bool.eq_iff_iff, hname, and_iff_left hneeds]

theorem name_accepts_within_content_sample :
    (child.constrain (.additional 0)).acceptsName .exactKey parent.name parent.publisher = true ∧
      (child.constrain (.additional 0)).accepts .exactKey parent = true := by
  have hname : (child.constrain (.additional 0)).acceptsName .exactKey parent.name
      parent.publisher = true := by decide
  exact ⟨hname, (name_accepts_within_content _ _ _).1 hname⟩

end Interest

end NamedContent
