import Mathlib.Tactic.TFAE
import NamedContent.Form.Retrieval
import NamedContent.Proofs.VersionTimes

/-!
The versions that have a component of their own. On those in range the component form is an
embedding of the numbers into byte strings, between two sentinels, and it is read back from
strings of its own shape only. Beyond the range ticks lose what they have above 48 bits. `Obtained`
lists the ways in which a version comes about; all of them keep to the range but the reading of a
kept form, which takes any number of 64 bits.
-/

namespace NamedContent

namespace Version

theorem order_toComponent {v w : Version} (hv : v.InRange) (hw : w.InRange) :
    Bytes.order v.toComponent w.toComponent = compare v.ticks.toNat w.ticks.toNat := by
  rcases Nat.lt_trichotomy v.ticks.toNat w.ticks.toNat with h | h | h
  · rw [Nat.compare_eq_lt.2 h, Bytes.order_eq_lt_iff, toComponent_lt_iff hv hw, lt_iff]
    exact h
  · rw [Nat.compare_eq_eq.2 h, Bytes.order_eq_eq_iff, toComponent_inj hv hw, eq_iff]
    exact h
  · rw [Nat.compare_eq_gt.2 h, Bytes.order_eq_gt_iff, toComponent_lt_iff hw hv, lt_iff]
    exact h

theorem exists_ofComponent_iff {c : Component} :
    (∃ v, ofComponent c = .ok v) ↔ c.length = componentLength ∧ c.head? = some marker := by
  cases c with
  | nil => simp [ofComponent]
  | cons m digits =>
    rw [ofComponent, List.length_cons, List.head?_cons, Option.some.injEq, componentLength]
    split
    · rename_i h
      simp [h]
    · rename_i h
      simp only [reduceCtorEq, exists_false, false_iff]
      rintro ⟨hlength, hmarker⟩
      exact h ⟨hmarker, Nat.succ.inj hlength⟩

/-- In range components are read back, compare as the versions do and stand between the marker
alone and the last component with a byte more. Whatever is read is the component of a version in
range, and the strings that are read are those of seven bytes with the marker in front. -/
theorem components_embed :
    (∀ a b : Version, a.InRange → b.InRange →
      ofComponent a.toComponent = .ok a ∧
        Bytes.order a.toComponent b.toComponent = compare a.ticks.toNat b.ticks.toNat ∧
        [marker] < a.toComponent ∧ a.toComponent < last.toComponent ++ [0]) ∧
      ∀ s : Component,
        (∀ v, ofComponent s = .ok v → v.InRange ∧ v.toComponent = s) ∧
          ((∃ v, ofComponent s = .ok v) ↔
            s.length = componentLength ∧ s.head? = some marker) :=
  ⟨fun a _ ha hb => ⟨ofComponent_toComponent ha, order_toComponent ha hb, marker_lt_toComponent a,
    toComponent_lt_last_append ha⟩,
    fun _ => ⟨fun _ => toComponent_of_ofComponent, exists_ofComponent_iff⟩⟩

theorem components_embed_sample :
    (⟨0xFF⟩ : Version).InRange ∧ (⟨0x100⟩ : Version).InRange ∧
      Bytes.order (⟨0xFF⟩ : Version).toComponent (⟨0x100⟩ : Version).toComponent = .lt ∧
      ∃ v, ofComponent [0xFD, 0, 0, 0, 0, 1, 0] = .ok v ∧ v.InRange := by
  have hlow : (⟨0xFF⟩ : Version).InRange := by decide
  have hhigh : (⟨0x100⟩ : Version).InRange := by decide
  obtain ⟨v, hv⟩ := (components_embed.2 [0xFD, 0, 0, 0, 0, 1, 0]).2.2 ⟨rfl, rfl⟩
  exact ⟨hlow, hhigh, (components_embed.1 _ _ hlow hhigh).2.1, v, hv,
    ((components_embed.2 _).1 v hv).1⟩

theorem ofTicks_eq_ok_iff {ticks : UInt64} {v : Version} :
    ofTicks ticks = .ok v ↔ v.InRange ∧ v.ticks = ticks := by
  have hmax : maxTicks.toNat = 2 ^ 48 - 1 := rfl
  rw [ofTicks, inRange_iff]
  split
  · rename_i h
    rw [UInt64.lt_iff_toNat_lt] at h
    simp only [reduceCtorEq, false_iff]
    rintro ⟨hrange, hticks⟩
    rw [hticks] at hrange
    omega
  · rename_i h
    rw [UInt64.lt_iff_toNat_lt] at h
    simp only [Except.ok.injEq]
    constructor
    · rintro rfl
      have hrange : ticks.toNat < 2 ^ 48 := by omega
      exact ⟨hrange, rfl⟩
    · rintro ⟨-, rfl⟩
      rfl

theorem ofForm?_eq_some_iff {form : Value} {v : Version} :
    ofForm? form = some v ↔ form = .integer v.ticks.toNat := by
  have hsize : UInt64.size = 2 ^ 64 := rfl
  have hread : (ofForm? form : Option Version) =
      (Form.natBelow? UInt64.size form).map fun n => ⟨UInt64.ofNat n⟩ := by
    show Version.mk <$> (UInt64.ofNat <$> Form.natBelow? UInt64.size form) = _
    cases Form.natBelow? UInt64.size form <;> rfl
  rw [hread]
  cases form with
  | integer i =>
    have hv := v.ticks.toNat_lt
    simp only [Form.natBelow?, Value.integer.injEq]
    split
    · rename_i hi
      rw [Option.map_some, Option.some.injEq, eq_iff, UInt64.toNat_ofNat']
      omega
    · simp only [Option.map_none, reduceCtorEq, false_iff]
      omega
  | _ => simp [Form.natBelow?]

theorem ofComponent_toComponent_mod (v : Version) :
    ofComponent v.toComponent = .ok ⟨UInt64.ofNat (v.ticks.toNat % 2 ^ 48)⟩ := by
  simp only [ofComponent, toComponent, Bytes.length_bigEndianOf, and_self, if_true,
    Bytes.ofBigEndian_bigEndianOf_mod, show 256 ^ 6 = 2 ^ 48 from rfl]

/-- The ways in which a version comes about; the forms that are read are those in `kept`. -/
inductive Obtained (kept : Value → Prop) : Version → Prop
  | ofTicks {ticks : UInt64} {v : Version} (h : ofTicks ticks = .ok v) : Obtained kept v
  | ofMillis (millis : UInt64) : Obtained kept (ofMillis millis)
  | ofDuration (sinceEpoch : Duration) : Obtained kept (ofDuration sinceEpoch)
  | ofComponent {c : Component} {v : Version} (h : ofComponent c = .ok v) : Obtained kept v
  | ofNameAt {n : Name} {i : Nat} {v : Version} (h : ofNameAt n i = .ok v) : Obtained kept v
  | next {u v : Version} (hu : Obtained kept u) (h : u.next? = some v) : Obtained kept v
  | prev {u v : Version} (hu : Obtained kept u) (h : u.prev? = some v) : Obtained kept v
  | read {form : Value} {v : Version} (hform : kept form) (h : ofForm? form = some v) :
    Obtained kept v

variable {kept : Value → Prop}

theorem Obtained.inRange (hkept : ∀ n : UInt64, kept (.integer n.toNat) → n.toNat < 2 ^ 48)
    {v : Version} (hv : Obtained kept v) : v.InRange := by
  induction hv with
  | ofTicks h => exact (ofTicks_eq_ok_iff.1 h).1
  | ofMillis => exact clamp_inRange _
  | ofDuration => exact clamp_inRange _
  | ofComponent h => exact (toComponent_of_ofComponent h).1
  | ofNameAt h => exact (ofNameAt_eq_ok_iff.1 h).1
  | next _ h => exact (next?_eq_some_iff.1 h).2
  | prev _ h ih =>
    have hprev := prev?_eq_some_iff.1 h
    rw [inRange_iff] at ih ⊢
    omega
  | @read form v hform h =>
    obtain rfl := ofForm?_eq_some_iff.1 h
    exact inRange_iff.2 (hkept v.ticks hform)

theorem Obtained.of_kept {n : UInt64} (h : kept (.integer n.toNat)) : Obtained kept ⟨n⟩ :=
  .read h (ofForm?_eq_some_iff.2 rfl)

theorem Obtained.exists_same_component (kept : Value → Prop) (v : Version) :
    ∃ w, Obtained kept w ∧ w.InRange ∧ w.toComponent = v.toComponent :=
  have h := ofComponent_toComponent_mod v
  ⟨_, .ofComponent h, toComponent_of_ofComponent h⟩

/-- However versions come about, each is below `2 ^ 48`, each is read back from its component and
no two have one component, and each of the three just if no larger number is read. -/
theorem obtained_inRange_tfae (kept : Value → Prop) : List.TFAE
    [∀ n : UInt64, kept (.integer n.toNat) → n.toNat < 2 ^ 48,
      ∀ v, Obtained kept v → v.ticks.toNat < 2 ^ 48,
      ∀ v, Obtained kept v → ofComponent v.toComponent = .ok v,
      ∀ v w, Obtained kept v → Obtained kept w → v.toComponent = w.toComponent → v = w] := by
  tfae_have 1 → 2 := fun hkept v hv => inRange_iff.1 (hv.inRange hkept)
  tfae_have 2 → 3 := fun hrange v hv => ofComponent_toComponent (inRange_iff.2 (hrange v hv))
  tfae_have 3 → 4 := by
    intro hback v w hv hw h
    have hread := hback v hv
    rw [h, hback w hw] at hread
    exact (Except.ok.inj hread).symm
  tfae_have 4 → 1 := by
    intro hdistinct n hn
    obtain ⟨w, hw, hrange, hsame⟩ := Obtained.exists_same_component kept ⟨n⟩
    obtain rfl := hdistinct w ⟨n⟩ hw (.of_kept hn) hsame
    exact inRange_iff.1 hrange
  tfae_finish

theorem obtained_inRange_tfae_sample :
    Obtained (· = .integer 4096) ⟨4095⟩ ∧
      ofComponent (⟨4095⟩ : Version).toComponent = .ok ⟨4095⟩ := by
  have hprev : Obtained (· = .integer 4096) ⟨4095⟩ :=
    .prev (.of_kept (n := 4096) rfl) (by decide)
  have hkept : ∀ n : UInt64, Value.integer n.toNat = .integer 4096 → n.toNat < 2 ^ 48 := by
    intro n hn
    have hn := Value.integer.inj hn
    omega
  have hback := ((obtained_inRange_tfae (· = .integer 4096)).out 0 2).1 hkept
  exact ⟨hprev, hback _ hprev⟩

/-- A number of 49 bits is read as a version that has the component of the first one. -/
theorem read_beyond_range :
    Obtained (· = .integer 0x1000000000000) ⟨0x1000000000000⟩ ∧
      Obtained (· = .integer 0x1000000000000) first ∧
      ¬ (⟨0x1000000000000⟩ : Version).ticks.toNat < 2 ^ 48 ∧
      (⟨0x1000000000000⟩ : Version).toComponent = first.toComponent ∧
      ofComponent (⟨0x1000000000000⟩ : Version).toComponent = .ok first :=
  have hfirst : ofTicks 0 = .ok first := by decide
  ⟨.of_kept (n := 0x1000000000000) rfl, .ofTicks hfirst, by decide, by decide, by decide⟩

end Version

end NamedContent
