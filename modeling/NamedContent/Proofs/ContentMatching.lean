import Mathlib.Algebra.Group.Int.Defs
import Mathlib.Algebra.Group.Nat.Defs
import Mathlib.Logic.Basic
import NamedContent.Interest.Match

/-!
What it means that a content answers an Interest. The predicate works out from counts whether the
digest belongs to the candidate, shortens the prefix in one corner, and can subtract its counts
in signed words of 64 bits. `Meets` says the same of the full name alone. `examine` is the
predicate on words, check by check, with a record of whom the trust policy was asked about; up to
`2 ^ 63` components the words neither wrap nor meet a count by accident.
-/

namespace NamedContent

def Judgement.questions : Judgement → List (PublisherId × Digest)
  | .ask required signer => [(required, signer)]
  | _ => []

namespace Interest

variable {i : Interest} {c : Content} {trust : Trust}

def candidate (i : Interest) (c : Content) : Name :=
  if c.name.length + 1 = i.sharedCount then c.fullName else c.name

/-- What an Interest asks of a content, whoever signed it. -/
structure Meets (i : Interest) (c : Content) : Prop where
  begins : i.name.agreesUpTo c.fullName i.sharedCount = true ∨
    i.additional = some 0 ∧ (∀ k, i.prefixCount = some k → k.toNat = i.name.length) ∧
      i.name.agreesUpTo c.fullName (i.sharedCount - 1) = true
  goesOn : ∀ n, i.additional = some n → c.fullName.length = i.sharedCount + n.toNat
  sorts : i.order ≠ none → i.name < i.candidate c ∨
    c.name.length + 1 = i.sharedCount ∧ c.fullName.length + 1 = i.name.length
  admits : ∀ f, i.exclude = some f → ∀ x, c.name.component? i.sharedCount = some x →
    f.excludes x = false

def PublisherMet (i : Interest) (trust : Trust) (c : Content) : Prop :=
  ∀ required, i.publisher = some required →
    ∃ signer, c.publisher = some signer ∧ trust.meets required signer = true

theorem namesDigest_iff : i.namesDigest = true ↔
    i.additional = some 0 ∧ ∀ k, i.prefixCount = some k → k.toNat = i.name.length := by
  cases h : i.prefixCount <;> simp [namesDigest, sharedCount, h]

theorem agreesUpTo_of_le {n other : Name} {j k : Nat} (h : j ≤ k)
    (hk : n.agreesUpTo other k = true) : n.agreesUpTo other j = true := by
  simp only [Name.agreesUpTo, Bool.and_eq_true, decide_eq_true_eq, beq_iff_eq] at hk ⊢
  obtain ⟨⟨hn, hother⟩, heq⟩ := hk
  have := congrArg (List.take j) heq
  rw [List.take_take, List.take_take, Nat.min_eq_left h] at this
  exact ⟨⟨by omega, by omega⟩, this⟩

theorem agreesUpTo_fullName {n : Name} {k : Nat} (h : k ≤ c.name.length) :
    n.agreesUpTo c.fullName k = n.agreesUpTo c.name k := by
  have htake : c.fullName.components.take k = c.name.components.take k :=
    List.take_append_of_le_length h
  have hfull : k ≤ c.fullName.length := by
    rw [Content.length_fullName]
    omega
  simp only [Name.agreesUpTo, htake, h, hfull]

theorem isPrefixOf_fullName_iff : i.isPrefixOf c.fullName = true ↔
    i.name.agreesUpTo c.fullName i.sharedCount = true ∨ i.additional = some 0 ∧
      (∀ k, i.prefixCount = some k → k.toNat = i.name.length) ∧
        i.name.agreesUpTo c.fullName (i.sharedCount - 1) = true := by
  rw [← and_assoc, ← namesDigest_iff, isPrefixOf]
  cases i.namesDigest with
  | false => simp
  | true =>
    simp only [if_true, true_and]
    exact ⟨.inr, fun h => h.elim (agreesUpTo_of_le (Nat.sub_le _ _)) id⟩

theorem additionalMet_iff {name : Name} {digestIncluded : Bool} :
    i.additionalMet name digestIncluded = true ↔ ∀ n, i.additional = some n →
      name.length + (if digestIncluded then 0 else 1) = i.sharedCount + n.toNat := by
  cases h : i.additional <;> simp [additionalMet, h]

theorem orderMet_iff {name : Name} {digestIncluded : Bool} :
    i.orderMet name digestIncluded = true ↔ (i.order ≠ none → i.name < name ∨
      digestIncluded = true ∧ name.length + 1 = i.name.length) := by
  cases h : i.order <;> simp [orderMet, h]

theorem excludeMet_iff {name : Name} :
    i.excludeMet name = true ↔ ∀ f, i.exclude = some f →
      ∀ x, name.component? i.sharedCount = some x → f.excludes x = false := by
  cases h : i.exclude <;> cases hx : name.component? i.sharedCount <;> simp [excludeMet, h, hx]

def checks (i : Interest) (name : Name) (digestIncluded : Bool) : Bool :=
  i.isPrefixOf name && i.additionalMet name digestIncluded &&
    i.orderMet name digestIncluded && i.excludeMet name

theorem checks_iff {name : Name} {digestIncluded : Bool} :
    i.checks name digestIncluded = true ↔
      i.isPrefixOf name = true ∧ i.additionalMet name digestIncluded = true ∧
        i.orderMet name digestIncluded = true ∧ i.excludeMet name = true := by
  simp only [checks, Bool.and_eq_true, and_assoc]

theorem judge_eq (name : Name) (digestIncluded : Bool) (signer : Option Digest) :
    i.judge name digestIncluded signer =
      if i.checks name digestIncluded then i.judgePublisher signer else .refused := rfl

/-- A content whose digest is the last shared component is judged by its full name, which has
nothing after the shared components to exclude. -/
theorem checks_fullName_iff (h : c.name.length + 1 = i.sharedCount) :
    i.checks c.fullName true = true ↔ i.Meets c := by
  have hcandidate : i.candidate c = c.fullName := if_pos h
  have hfull : c.fullName.component? i.sharedCount = none := by
    rw [Name.component?, List.getElem?_eq_none_iff]
    exact Nat.le_of_eq ((Content.length_fullName c).trans h)
  have hname : c.name.component? i.sharedCount = none := by
    rw [Name.component?, List.getElem?_eq_none_iff]
    exact Nat.le_of_succ_le (Nat.le_of_eq h)
  rw [checks_iff, isPrefixOf_fullName_iff, additionalMet_iff, orderMet_iff, excludeMet_iff, hfull]
  simp only [if_true, Nat.add_zero, true_and]
  constructor
  · rintro ⟨hbegins, hcount, horder, -⟩
    exact ⟨hbegins, hcount, by simpa only [hcandidate, h, true_and] using horder,
      fun _ _ x hx => by rw [hname] at hx; cases hx⟩
  · intro m
    exact ⟨m.begins, m.goesOn, by simpa only [hcandidate, h, true_and] using m.sorts,
      fun _ _ x hx => by cases hx⟩

theorem checks_name_iff (h : c.name.length + 1 ≠ i.sharedCount) :
    i.checks c.name false = true ↔ i.Meets c := by
  have hcandidate : i.candidate c = c.name := if_neg h
  have hcorner : (∀ n, i.additional = some n → c.name.length + 1 = i.sharedCount + n.toNat) →
      i.additional ≠ some 0 := by
    intro hcount h0
    exact h (by simpa using hcount 0 h0)
  have hbegins : i.additional ≠ some 0 → (i.isPrefixOf c.name = true ↔
      i.name.agreesUpTo c.fullName i.sharedCount = true) := by
    intro hne
    have hdigest : i.namesDigest = false := by
      rw [← Bool.not_eq_true, namesDigest_iff]
      exact fun hdigest => hne hdigest.1
    rw [isPrefixOf, hdigest, if_neg Bool.false_ne_true]
    by_cases hle : i.sharedCount ≤ c.name.length
    · rw [agreesUpTo_fullName hle]
    · have hlong : ¬ i.sharedCount ≤ c.fullName.length := by
        rw [Content.length_fullName]
        omega
      simp only [Name.agreesUpTo, hle, hlong, decide_false, Bool.and_false, Bool.false_and]
  rw [checks_iff, additionalMet_iff, orderMet_iff, excludeMet_iff]
  simp only [Bool.false_eq_true, if_false, false_and, or_false]
  constructor
  · rintro ⟨hshared, hcount, horder, hadmits⟩
    exact ⟨.inl ((hbegins (hcorner hcount)).1 hshared),
      by simpa only [Content.length_fullName] using hcount,
      by simpa only [hcandidate, h, false_and, or_false] using horder, hadmits⟩
  · intro m
    have hcount : ∀ n, i.additional = some n → c.name.length + 1 = i.sharedCount + n.toNat := by
      simpa only [Content.length_fullName] using m.goesOn
    have hagrees := m.begins.resolve_right fun hcase => hcorner hcount hcase.1
    exact ⟨(hbegins (hcorner hcount)).2 hagrees, hcount,
      by simpa only [hcandidate, h, false_and, or_false] using m.sorts, m.admits⟩

theorem checks_candidate_iff :
    i.checks (i.candidate c) (c.name.length + 1 == i.sharedCount) = true ↔ i.Meets c := by
  by_cases h : c.name.length + 1 = i.sharedCount
  · rw [candidate, if_pos h, beq_iff_eq.2 h, checks_fullName_iff h]
  · rw [candidate, if_neg h, beq_eq_false_iff_ne.2 h, checks_name_iff h]

instance : Decidable (i.Meets c) := decidable_of_iff _ checks_candidate_iff

theorem judgeContent_eq_judge : i.judgeContent c =
    i.judge (i.candidate c) (c.name.length + 1 == i.sharedCount) c.publisher := by
  by_cases h : c.name.length + 1 = i.sharedCount
  · rw [judgeContent, candidate, if_pos (beq_iff_eq.2 h), if_pos h, beq_iff_eq.2 h]
  · rw [judgeContent, candidate, beq_eq_false_iff_ne.2 h, if_neg Bool.false_ne_true, if_neg h]

theorem judgeContent_eq :
    i.judgeContent c = if i.Meets c then i.judgePublisher c.publisher else .refused := by
  simp only [judgeContent_eq_judge, judge_eq, checks_candidate_iff]

theorem accepts_iff_meets : i.accepts trust c = true ↔ i.Meets c ∧ i.PublisherMet trust c := by
  rw [accepts, judgeContent_eq]
  by_cases hmeets : i.Meets c
  · cases hrequired : i.publisher <;> cases hsigner : c.publisher <;>
      simp [hmeets, PublisherMet, judgePublisher, hrequired, hsigner, Judgement.resolve]
  · simp [hmeets, Judgement.resolve]

def lengthDiff (i : Interest) (name : Name) (digestIncluded : Bool) : Int64 :=
  Int64.ofNat name.length + (if digestIncluded then 0 else 1) - Int64.ofNat i.sharedCount

def additionalMetInWords (i : Interest) (name : Name) (digestIncluded : Bool) : Bool :=
  match i.additional with
  | none => true
  | some n => i.lengthDiff name digestIncluded == n.toInt64

theorem toInt_lengthDiff {name : Name} {digestIncluded : Bool}
    (hshared : i.sharedCount ≤ name.length + (if digestIncluded then 0 else 1))
    (hname : name.length + (if digestIncluded then 0 else 1) < 2 ^ 63) :
    (i.lengthDiff name digestIncluded).toInt =
      ((name.length + (if digestIncluded then 0 else 1) : Nat) : Int) - i.sharedCount := by
  have hsum : Int64.ofNat name.length + (if digestIncluded then 0 else 1) =
      Int64.ofNat (name.length + (if digestIncluded then 0 else 1)) := by
    cases digestIncluded <;> simp
  rw [lengthDiff, hsum, Int64.toInt_sub, Int64.toInt_ofNat_of_lt hname,
    Int64.toInt_ofNat_of_lt (Nat.lt_of_le_of_lt hshared hname)]
  exact Int.bmod_eq_of_le (by omega) (by omega)

/-- On words the count is met just if it is met: a count of `2 ^ 63` or more turns negative, and
the difference does not. -/
theorem additionalMetInWords_eq {name : Name} {digestIncluded : Bool}
    (hshared : i.sharedCount ≤ name.length + (if digestIncluded then 0 else 1))
    (hname : name.length + (if digestIncluded then 0 else 1) < 2 ^ 63) :
    i.additionalMetInWords name digestIncluded = i.additionalMet name digestIncluded := by
  cases h : i.additional with
  | none => simp only [additionalMetInWords, additionalMet, h]
  | some n =>
    have hword : n.toInt64.toInt =
        if 2 * n.toNat < 2 ^ 64 then (n.toNat : Int) else n.toNat - (2 ^ 64 : Nat) :=
      BitVec.toInt_eq_toNat_cond _
    have hlt : n.toNat < 2 ^ 64 := n.toNat_lt
    simp only [additionalMetInWords, additionalMet, h]
    rw [Bool.eq_iff_iff, beq_iff_eq, beq_iff_eq, ← Int64.toInt_inj,
      toInt_lengthDiff hshared hname, hword]
    generalize name.length + (if digestIncluded then 0 else 1) = reach at hshared hname
    split <;> omega

def examinePublisher (i : Interest) (trust : Trust) (signer : Option Digest) :
    StateM (List (PublisherId × Digest)) Bool :=
  match i.publisher, signer with
  | none, _ => pure true
  | some _, none => pure false
  | some required, some key => do
    modify (· ++ [(required, key)])
    pure (trust.meets required key)

/-- The predicate as it runs: one check after the other, on words, and the trust policy after all
of them. -/
def examine (i : Interest) (trust : Trust) (c : Content) :
    StateM (List (PublisherId × Digest)) Bool :=
  let digestIncluded := c.name.length + 1 == i.sharedCount
  let name := i.candidate c
  if !i.isPrefixOf name then pure false
  else if !i.additionalMetInWords name digestIncluded then pure false
  else if !i.orderMet name digestIncluded then pure false
  else if !i.excludeMet name then pure false
  else i.examinePublisher trust c.publisher

theorem examinePublisher_eq (trust : Trust) (signer : Option Digest)
    (asked : List (PublisherId × Digest)) :
    i.examinePublisher trust signer asked = ((i.judgePublisher signer).resolve trust,
      asked ++ (i.judgePublisher signer).questions) := by
  cases h : i.publisher <;> cases signer <;>
    simp only [examinePublisher, judgePublisher, h, Judgement.resolve, Judgement.questions,
      List.append_nil] <;> rfl

theorem guard_eq {ok : Bool} {judgement : Judgement} {asked : List (PublisherId × Digest)}
    {rest : StateM (List (PublisherId × Digest)) Bool}
    (h : rest asked = (judgement.resolve trust, asked ++ judgement.questions)) :
    (if !ok then pure false else rest : StateM (List (PublisherId × Digest)) Bool) asked =
      ((if ok then judgement else .refused).resolve trust,
        asked ++ (if ok then judgement else .refused).questions) := by
  cases ok with
  | true => exact h
  | false => exact congrArg (Prod.mk false) (List.append_nil asked).symm

theorem additionalMetInWords_of_isPrefixOf {name : Name} {digestIncluded : Bool}
    (hname : name.length + (if digestIncluded then 0 else 1) < 2 ^ 63)
    (hlong : digestIncluded = true → name.length = i.sharedCount)
    (hshared : i.isPrefixOf name = true) :
    i.additionalMetInWords name digestIncluded = i.additionalMet name digestIncluded := by
  refine additionalMetInWords_eq ?_ hname
  cases digestIncluded with
  | true => exact Nat.le_of_eq (hlong rfl).symm
  | false =>
    simp only [isPrefixOf, Name.agreesUpTo, Bool.and_eq_true, decide_eq_true_eq] at hshared
    have := hshared.1.2
    split at this <;> simp <;> omega

theorem examine_eq (trust : Trust) (hc : c.fullName.length < 2 ^ 63)
    (asked : List (PublisherId × Digest)) :
    i.examine trust c asked =
      ((i.judgeContent c).resolve trust, asked ++ (i.judgeContent c).questions) := by
  have hwords : i.isPrefixOf (i.candidate c) = true →
      i.additionalMetInWords (i.candidate c) (c.name.length + 1 == i.sharedCount) =
        i.additionalMet (i.candidate c) (c.name.length + 1 == i.sharedCount) := by
    rw [Content.length_fullName] at hc
    by_cases h : c.name.length + 1 = i.sharedCount
    · rw [candidate, if_pos h, beq_iff_eq.2 h]
      exact additionalMetInWords_of_isPrefixOf (by simpa using hc)
        fun _ => (Content.length_fullName c).trans h
    · rw [candidate, if_neg h, beq_eq_false_iff_ne.2 h]
      exact additionalMetInWords_of_isPrefixOf (by simpa using hc) nofun
  have hjudge : i.judgeContent c = if i.isPrefixOf (i.candidate c) then
      if i.additionalMetInWords (i.candidate c) (c.name.length + 1 == i.sharedCount) then
        if i.orderMet (i.candidate c) (c.name.length + 1 == i.sharedCount) then
          if i.excludeMet (i.candidate c) then i.judgePublisher c.publisher else .refused
        else .refused
      else .refused
    else .refused := by
    rw [judgeContent_eq_judge, judge]
    simp only [Bool.and_eq_true, ite_and]
    split
    · rename_i hshared
      rw [hwords hshared]
    · rfl
  rw [hjudge]
  exact guard_eq (guard_eq (guard_eq (guard_eq (examinePublisher_eq _ _ _))))

theorem questions_judgeContent : (i.judgeContent c).questions =
    match i.publisher, c.publisher with
    | some required, some signer => if i.Meets c then [(required, signer)] else []
    | _, _ => [] := by
  rw [judgeContent_eq]
  cases hrequired : i.publisher <;> cases hsigner : c.publisher <;> split <;>
    simp [judgePublisher, hrequired, Judgement.questions]

theorem asks_judgeContent_iff : (i.judgeContent c).asks = true ↔
    i.publisher ≠ none ∧ c.publisher ≠ none ∧ i.Meets c := by
  rw [judgeContent_eq]
  cases hrequired : i.publisher <;> cases hsigner : c.publisher <;> split <;>
    simp [judgePublisher, Judgement.asks, *]

/-- The predicate on words accepts a content just if the full name meets what the Interest asks
of it and the signer meets the publisher. The trust policy is asked once, about the required
publisher and the signer, if both are there and all else is met; otherwise nobody is asked. So the
judgement says whether it is asked. -/
theorem examine_iff_meets (i : Interest) (trust : Trust) (c : Content)
    (hc : c.fullName.length < 2 ^ 63) (asked : List (PublisherId × Digest)) :
    (i.examine trust c asked).1 = i.accepts trust c ∧
      ((i.examine trust c asked).1 = true ↔ i.Meets c ∧ i.PublisherMet trust c) ∧
      (∀ required signer, i.publisher = some required → c.publisher = some signer → i.Meets c →
        (i.examine trust c asked).2 = asked ++ [(required, signer)]) ∧
      (i.publisher = none ∨ c.publisher = none ∨ ¬ i.Meets c →
        (i.examine trust c asked).2 = asked) ∧
      ((i.judgeContent c).asks = true ↔
        i.publisher ≠ none ∧ c.publisher ≠ none ∧ i.Meets c) := by
  rw [examine_eq trust hc, questions_judgeContent]
  refine ⟨rfl, accepts_iff_meets, ?_, ?_, asks_judgeContent_iff⟩
  · intro required signer hrequired hsigner hmeets
    simp only [hrequired, hsigner, if_pos hmeets]
  · rintro (h | h | h)
    · simp only [h, List.append_nil]
    · cases i.publisher <;> simp only [h, List.append_nil]
    · simp only [if_neg h]
      split <;> exact List.append_nil _

def sampleRequest : Interest :=
  { name := ⟨[[0x61]]⟩, additional := some 2, publisher := some ⟨.key, ⟨List.replicate 32 3, rfl⟩⟩,
    exclude := some ⟨[[0x63]], [false, false], by decide, by decide⟩, order := some .right }

def sampleAnswer : Content := ⟨⟨[[0x61], [0x62]]⟩, some ⟨List.replicate 32 3, rfl⟩, [0x68]⟩

theorem examine_iff_meets_sample :
    sampleAnswer.fullName.length < 2 ^ 63 ∧
      sampleRequest.examine .exactKey sampleAnswer [] =
        (true, [(⟨.key, ⟨List.replicate 32 3, rfl⟩⟩, ⟨List.replicate 32 3, rfl⟩)]) := by
  have hc : sampleAnswer.fullName.length < 2 ^ 63 := by
    rw [Content.length_fullName]
    decide
  have hmeets : sampleRequest.Meets sampleAnswer := by decide
  obtain ⟨-, haccepts, hasks, -⟩ := examine_iff_meets sampleRequest .exactKey sampleAnswer hc []
  refine ⟨hc, Prod.ext (haccepts.2 ⟨hmeets, ?_⟩) (hasks _ _ rfl rfl hmeets)⟩
  intro required hrequired
  obtain rfl := Option.some.inj hrequired
  exact ⟨_, rfl, by decide⟩

end Interest

end NamedContent
