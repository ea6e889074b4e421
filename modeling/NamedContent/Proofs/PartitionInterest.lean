import NamedContent.Interest.Match
import NamedContent.Proofs.PartitionFilter

/-! Which content answers the Interest of a partition. It requires no publisher and no order, so
no trust policy is asked. Content whose name goes on after the base name answers just if the base
name begins it, the count of its components is the one asked for, and the partition admits the
component that follows. -/

namespace NamedContent

namespace Interest

variable {basename : Name} {additional : Option UInt64} {f : ExcludeFilter} {trust : Trust}
  {c : Content} {x : Component}

theorem agreesUpTo_length_iff {n other : Name} :
    n.agreesUpTo other n.length = true ↔ n.components <+: other.components :=
  Name.isPrefixOf_iff

theorem accepts_filtered (candidate : Name) (digestIncluded : Bool) (signer : Option Digest) :
    (({ name := basename, additional, exclude := some f } : Interest).judge candidate
        digestIncluded signer).resolve trust = true ↔
      basename.agreesUpTo candidate
          (if additional = some 0 then basename.length - 1 else basename.length) = true ∧
        (∀ k, additional = some k →
          candidate.length + (if digestIncluded then 0 else 1) = basename.length + k.toNat) ∧
        ∀ x, candidate.component? basename.length = some x → f.excludes x = false := by
  have hbegins : ({ name := basename, additional, exclude := some f } : Interest).isPrefixOf
      candidate = basename.agreesUpTo candidate
        (if additional = some 0 then basename.length - 1 else basename.length) := by
    simp [isPrefixOf, namesDigest, sharedCount]
  have hcount : ({ name := basename, additional, exclude := some f } : Interest).additionalMet
      candidate digestIncluded = true ↔ ∀ k, additional = some k →
        candidate.length + (if digestIncluded then 0 else 1) = basename.length + k.toNat := by
    cases additional <;> simp [additionalMet, sharedCount]
  have hexclude : ({ name := basename, additional, exclude := some f } : Interest).excludeMet
      candidate = true ↔
        ∀ x, candidate.component? basename.length = some x → f.excludes x = false := by
    cases hx : candidate.component? basename.length <;> simp [excludeMet, sharedCount, hx]
  have horder : ({ name := basename, additional, exclude := some f } : Interest).orderMet
      candidate digestIncluded = true := rfl
  have hpublisher : ({ name := basename, additional, exclude := some f } :
      Interest).judgePublisher signer = .accepted := rfl
  rw [judge, hpublisher, horder, Bool.and_true, ← hcount, ← hexclude, ← hbegins]
  split
  · rename_i h
    rw [Bool.and_eq_true, Bool.and_eq_true, and_assoc] at h
    exact ⟨fun _ => h, fun _ => rfl⟩
  · rename_i h
    rw [Bool.and_eq_true, Bool.and_eq_true, and_assoc] at h
    exact ⟨fun hrefused => absurd hrefused Bool.false_ne_true, fun hall => absurd hall h⟩

theorem accepts_filtered_iff (hx : c.name.component? basename.length = some x) :
    ({ name := basename, additional, exclude := some f } : Interest).accepts trust c = true ↔
      basename.components <+: c.name.components ∧
        (∀ k, additional = some k → c.name.length + 1 = basename.length + k.toNat) ∧
        f.excludes x = false := by
  have hlt : basename.length < c.name.length := by
    simp only [Name.component?, List.getElem?_eq_some_iff] at hx
    exact hx.1
  have hne : (c.name.length + 1 == basename.length) = false := by
    simp only [beq_eq_false_iff_ne]
    omega
  have hshared : ({ name := basename, additional, exclude := some f } : Interest).sharedCount =
      basename.length := rfl
  rw [accepts, judgeContent, hshared, hne, if_neg Bool.false_ne_true, accepts_filtered,
    ← agreesUpTo_length_iff]
  simp only [Bool.false_eq_true, if_false, hx, Option.some.injEq, forall_eq']
  have hroom : (∀ k, additional = some k → c.name.length + 1 = basename.length + k.toNat) →
      additional ≠ some 0 := by
    intro hcount h0
    have := hcount 0 h0
    simp only [UInt64.toNat_zero] at this
    omega
  constructor
  · rintro ⟨hbegins, hcount, hadmits⟩
    rw [if_neg (hroom hcount)] at hbegins
    exact ⟨hbegins, hcount, hadmits⟩
  · rintro ⟨hbegins, hcount, hadmits⟩
    rw [if_neg (hroom hcount)]
    exact ⟨hbegins, hcount, hadmits⟩

theorem component_of_accepts {k : UInt64} (hk : 2 ≤ k.toNat)
    (h : ({ name := basename, additional := some k, exclude := some f } : Interest).accepts
      trust c = true) : ∃ x, c.name.component? basename.length = some x := by
  have hshared : ({ name := basename, additional := some k, exclude := some f } :
      Interest).sharedCount = basename.length := rfl
  have hlt : basename.length < c.name.length := by
    rw [accepts, judgeContent, hshared] at h
    split at h
    · rename_i hlen
      have hcount := ((accepts_filtered _ _ _).1 h).2.1 k rfl
      simp only [beq_iff_eq] at hlen
      simp only [if_true, Content.length_fullName] at hcount
      omega
    · have hcount := ((accepts_filtered _ _ _).1 h).2.1 k rfl
      simp only [Bool.false_eq_true, if_false] at hcount
      omega
  exact ⟨c.name.components[basename.length], List.getElem?_eq_getElem hlt⟩

end Interest

namespace Partition

variable {p : Partition} {basename : Name} {config : Config} {i : Interest}

theorem interest_name (h : p.interest basename config = .ok i) :
    ∃ f, p.excludeFilter = .ok f ∧
      i = { name := basename, additional := config.additional, exclude := some f } := by
  rw [interest] at h
  cases hf : p.excludeFilter with
  | error e =>
    rw [hf] at h
    cases h
  | ok f =>
    rw [hf] at h
    exact ⟨f, rfl, (Except.ok.inj h).symm⟩

/-- The Interest of a partition accepts what goes on after the base name as the partition says. -/
theorem WellFormed.accepts_iff (h : p.WellFormed) (hi : p.interest basename config = .ok i)
    {trust : Trust} {c : Content} {x : Component}
    (hx : c.name.component? basename.length = some x) :
    i.accepts trust c = true ↔ basename.components <+: c.name.components ∧
      (∀ k, config.additional = some k → c.name.length + 1 = basename.length + k.toNat) ∧
      p.Admits x := by
  obtain ⟨f, hf, hadmits, hok⟩ := h.interest_eq_ok basename config
  obtain rfl := Except.ok.inj (hi.symm.trans hok)
  rw [Interest.accepts_filtered_iff hx, hadmits]

end Partition

end NamedContent
