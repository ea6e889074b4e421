import Mathlib.Algebra.Group.Nat.Defs
import Mathlib.Data.List.Induction
import NamedContent.Version

/-! The component form of versions keeps their order: big-endian digits of one width compare as
the numbers do, so components between two version components stand between the versions.
Versions are compared through their ticks as natural numbers. -/

namespace NamedContent

namespace Bytes

theorem lt_trans {a b c : Bytes} (hab : a < b) (hbc : b < c) : a < c :=
  List.lt_trans hab hbc

theorem lt_irrefl (a : Bytes) : ¬ a < a :=
  List.lt_irrefl a

theorem lt_asymm {a b : Bytes} (h : a < b) : ¬ b < a :=
  List.lt_asymm h

theorem ne_of_lt {a b : Bytes} (h : a < b) : a ≠ b :=
  fun he => lt_irrefl b (he ▸ h)

theorem lt_or_eq_or_lt (a b : Bytes) : a < b ∨ a = b ∨ b < a := by
  by_cases hab : a < b
  · exact .inl hab
  · by_cases he : a = b
    · exact .inr (.inl he)
    · exact .inr (.inr (Std.lt_of_le_of_ne (List.not_lt.1 hab) (Ne.symm he)))

theorem order_eq_gt_iff {a b : Bytes} : order a b = .gt ↔ b < a := by
  have hlt : order a b = .lt ↔ a < b := order_eq_lt_iff
  have heq : order a b = .eq ↔ a = b := order_eq_eq_iff
  rcases lt_or_eq_or_lt a b with h | h | h
  · simp [hlt.2 h, lt_asymm h]
  · rw [heq.2 h, h]
    simp [lt_irrefl]
  · cases ho : order a b with
    | lt => exact absurd (hlt.1 ho) (lt_asymm h)
    | eq => exact absurd (heq.1 ho).symm (ne_of_lt h)
    | gt => simp [h]

/-- Of two strings of one length the first difference decides, wherever it stands. -/
theorem append_lt_append_iff {as bs : Bytes} (hlen : as.length = bs.length) {a b : UInt8} :
    as ++ [a] < bs ++ [b] ↔ as < bs ∨ as = bs ∧ a < b := by
  induction as generalizing bs with
  | nil =>
    obtain rfl : bs = [] := List.eq_nil_of_length_eq_zero hlen.symm
    simp [List.cons_lt_cons_iff]
  | cons x xs ih =>
    cases bs with
    | nil => simp at hlen
    | cons y ys =>
      have hrest := ih (Nat.succ.inj hlen)
      simp only [List.cons_append, List.cons_lt_cons_iff, hrest, List.cons.injEq]
      constructor
      · rintro (h | ⟨rfl, h | ⟨rfl, h⟩⟩)
        · exact .inl (.inl h)
        · exact .inl (.inr ⟨rfl, h⟩)
        · exact .inr ⟨⟨rfl, rfl⟩, h⟩
      · rintro ((h | ⟨rfl, h⟩) | ⟨⟨rfl, rfl⟩, h⟩)
        · exact .inl h
        · exact .inr ⟨rfl, .inl h⟩
        · exact .inr ⟨rfl, .inr ⟨rfl, h⟩⟩

theorem lt_append_of_not_lt {a b : Bytes} (h : ¬ b < a) (x : UInt8) : a < b ++ [x] := by
  have hext : b < b ++ [x] := by
    have h : b ++ [] < b ++ [x] := List.append_left_lt (List.nil_lt_cons x [])
    simpa using h
  rcases lt_or_eq_or_lt a b with hab | rfl | hba
  · exact lt_trans hab hext
  · exact hext
  · exact absurd hba h

theorem ofBigEndian_append (bs : Bytes) (b : UInt8) :
    ofBigEndian (bs ++ [b]) = 256 * ofBigEndian bs + b.toNat := by
  simp [ofBigEndian]

theorem ofBigEndian_lt (bs : Bytes) : ofBigEndian bs < 256 ^ bs.length := by
  induction bs using List.reverseRecOn with
  | nil => simp [ofBigEndian]
  | append_singleton bs b ih =>
    have hb := b.toNat_lt
    rw [ofBigEndian_append, List.length_append, List.length_singleton, Nat.pow_succ]
    omega

theorem ofBigEndian_bigEndianOf_mod (width n : Nat) :
    ofBigEndian (bigEndianOf width n) = n % 256 ^ width := by
  induction width generalizing n with
  | zero => simp [bigEndianOf, ofBigEndian, Nat.mod_one]
  | succ width ih =>
    rw [bigEndianOf, ofBigEndian_append, ih, UInt8.toNat_ofNat', Nat.add_comm,
      Nat.pow_succ' (n := width), Nat.mod_mul]

theorem ofBigEndian_bigEndianOf (width : Nat) {n : Nat} (hn : n < 256 ^ width) :
    ofBigEndian (bigEndianOf width n) = n := by
  rw [ofBigEndian_bigEndianOf_mod, Nat.mod_eq_of_lt hn]

theorem bigEndianOf_ofBigEndian (bs : Bytes) : bigEndianOf bs.length (ofBigEndian bs) = bs := by
  induction bs using List.reverseRecOn with
  | nil => rfl
  | append_singleton bs b ih =>
    have hb := b.toNat_lt
    have hdiv : (256 * ofBigEndian bs + b.toNat) / 256 = ofBigEndian bs := by omega
    have hlast : UInt8.ofNat (256 * ofBigEndian bs + b.toNat) = b := by
      apply UInt8.toNat_inj.1
      rw [UInt8.toNat_ofNat']
      omega
    rw [ofBigEndian_append, List.length_append, List.length_singleton, bigEndianOf, hdiv, ih,
      hlast]

theorem bigEndianOf_inj {width n m : Nat} (hn : n < 256 ^ width) (hm : m < 256 ^ width) :
    bigEndianOf width n = bigEndianOf width m ↔ n = m := by
  constructor
  · intro h
    rw [← ofBigEndian_bigEndianOf width hn, h, ofBigEndian_bigEndianOf width hm]
  · rintro rfl
    rfl

theorem bigEndianOf_lt_iff {width n m : Nat} (hn : n < 256 ^ width) (hm : m < 256 ^ width) :
    bigEndianOf width n < bigEndianOf width m ↔ n < m := by
  induction width generalizing n m with
  | zero =>
    have h0 : n = 0 := by simpa using hn
    have h1 : m = 0 := by simpa using hm
    simp [bigEndianOf, h0, h1]
  | succ width ih =>
    rw [Nat.pow_succ] at hn hm
    have hn' : n / 256 < 256 ^ width := by omega
    have hm' : m / 256 < 256 ^ width := by omega
    rw [bigEndianOf, bigEndianOf, append_lt_append_iff (by simp), ih hn' hm',
      bigEndianOf_inj hn' hm', UInt8.lt_iff_toNat_lt, UInt8.toNat_ofNat', UInt8.toNat_ofNat']
    omega

end Bytes

namespace Version

theorem lt_iff {v w : Version} : v < w ↔ v.ticks.toNat < w.ticks.toNat :=
  UInt64.lt_iff_toNat_lt

theorem le_iff {v w : Version} : v ≤ w ↔ v.ticks.toNat ≤ w.ticks.toNat :=
  UInt64.le_iff_toNat_le

theorem eq_iff {v w : Version} : v = w ↔ v.ticks.toNat = w.ticks.toNat := by
  rw [UInt64.toNat_inj]
  exact ⟨fun h => h ▸ rfl, fun h => by cases v; cases w; simpa using h⟩

@[simp] theorem ticks_first : first.ticks.toNat = 0 := rfl

@[simp] theorem ticks_last : last.ticks.toNat = 2 ^ 48 - 1 := rfl

theorem inRange_iff {v : Version} : v.InRange ↔ v.ticks.toNat < 2 ^ 48 := by
  rw [InRange, le_iff, ticks_last]
  omega

theorem InRange.ticks_lt {v : Version} (h : v.InRange) : v.ticks.toNat < 256 ^ 6 :=
  inRange_iff.1 h

theorem prev?_eq_some_iff {v u : Version} :
    v.prev? = some u ↔ u.ticks.toNat + 1 = v.ticks.toNat := by
  have hv := v.ticks.toNat_lt
  rw [prev?]
  split
  · rename_i h
    have h0 : v.ticks.toNat = 0 := by simpa using congrArg UInt64.toNat h
    simp [h0]
  · rename_i h
    have h0 : v.ticks.toNat ≠ 0 := fun h0 => h (UInt64.toNat_inj.1 h0)
    have hone : (1 : UInt64) ≤ v.ticks := UInt64.le_iff_toNat_le.2 (Nat.pos_of_ne_zero h0)
    rw [Option.some.injEq, eq_iff, UInt64.toNat_sub_of_le _ _ hone, UInt64.toNat_one]
    omega

theorem prev?_eq_none_iff {v : Version} : v.prev? = none ↔ v.ticks.toNat = 0 := by
  rw [prev?, ite_eq_left_iff]
  simp only [reduceCtorEq, imp_false, Decidable.not_not]
  exact ⟨fun h => congrArg UInt64.toNat h, fun h => UInt64.toNat_inj.1 h⟩

theorem next?_eq_some_iff {v w : Version} :
    v.next? = some w ↔ v.ticks.toNat + 1 = w.ticks.toNat ∧ w.InRange := by
  have hmax : maxTicks.toNat = 2 ^ 48 - 1 := rfl
  rw [next?, inRange_iff]
  split
  · rename_i h
    rw [UInt64.lt_iff_toNat_lt] at h
    rw [Option.some.injEq, eq_iff, UInt64.toNat_add, UInt64.toNat_one]
    omega
  · rename_i h
    rw [UInt64.lt_iff_toNat_lt] at h
    simp only [reduceCtorEq, false_iff]
    omega

theorem next?_eq_none_iff {v : Version} : v.next? = none ↔ 2 ^ 48 - 1 ≤ v.ticks.toNat := by
  have hmax : maxTicks.toNat = 2 ^ 48 - 1 := rfl
  rw [next?, ite_eq_right_iff]
  simp only [reduceCtorEq, imp_false]
  rw [UInt64.lt_iff_toNat_lt]
  omega

theorem toComponent_lt_iff {v w : Version} (hv : v.InRange) (hw : w.InRange) :
    v.toComponent < w.toComponent ↔ v < w := by
  rw [toComponent, toComponent, List.cons_lt_cons_iff, Bytes.bigEndianOf_lt_iff hv.ticks_lt
    hw.ticks_lt, lt_iff]
  simp

theorem toComponent_inj {v w : Version} (hv : v.InRange) (hw : w.InRange) :
    v.toComponent = w.toComponent ↔ v = w := by
  rw [toComponent, toComponent, List.cons.injEq, Bytes.bigEndianOf_inj hv.ticks_lt hw.ticks_lt,
    eq_iff]
  simp

theorem ofComponent_toComponent {v : Version} (hv : v.InRange) :
    ofComponent v.toComponent = .ok v := by
  simp only [ofComponent, toComponent, Bytes.length_bigEndianOf, and_self, if_true,
    Bytes.ofBigEndian_bigEndianOf 6 hv.ticks_lt, UInt64.ofNat_toNat]

theorem toComponent_of_ofComponent {c : Component} {v : Version} (h : ofComponent c = .ok v) :
    v.InRange ∧ v.toComponent = c := by
  cases c with
  | nil => simp [ofComponent] at h
  | cons m digits =>
    rw [ofComponent] at h
    split at h
    · rename_i hm
      obtain ⟨rfl, hlen⟩ := hm
      obtain rfl : ⟨UInt64.ofNat (Bytes.ofBigEndian digits)⟩ = v := Except.ok.inj h
      have hlt := Bytes.ofBigEndian_lt digits
      rw [hlen] at hlt
      have hticks : (UInt64.ofNat (Bytes.ofBigEndian digits)).toNat = Bytes.ofBigEndian digits := by
        rw [UInt64.toNat_ofNat']
        omega
      constructor
      · rw [inRange_iff, hticks]
        omega
      · rw [toComponent, hticks, ← hlen, Bytes.bigEndianOf_ofBigEndian]
    · simp at h

theorem ofComponent_eq_ok_iff {c : Component} {v : Version} :
    ofComponent c = .ok v ↔ v.InRange ∧ v.toComponent = c :=
  ⟨toComponent_of_ofComponent, fun ⟨hv, hc⟩ => hc ▸ ofComponent_toComponent hv⟩

theorem ofComponent_ne_missing (c : Component) (i : Nat) :
    ofComponent c ≠ .error (.missingComponent i) := by
  cases c with
  | nil => simp [ofComponent]
  | cons m digits =>
    rw [ofComponent]
    split <;> simp

theorem ofNameAt_of_component? {n : Name} {i : Nat} {c : Component} {v : Version}
    (hc : n.component? i = some c) (hv : ofComponent c = .ok v) : ofNameAt n i = .ok v := by
  rw [ofNameAt, hc]
  exact hv

theorem ofNameAt_eq_ok_iff {n : Name} {i : Nat} {v : Version} :
    ofNameAt n i = .ok v ↔ v.InRange ∧ n.component? i = some v.toComponent := by
  rw [ofNameAt]
  cases hc : n.component? i with
  | none => simp
  | some c =>
    simp only [ofComponent_eq_ok_iff, Option.some.injEq]
    exact and_congr_right fun _ => eq_comm

theorem isComponent_eq_true_iff {c : Component} :
    isComponent c = true ↔ ∃ v : Version, v.InRange ∧ v.toComponent = c := by
  rw [isComponent]
  split
  · rename_i v hv
    simpa using ⟨v, toComponent_of_ofComponent hv⟩
  · rename_i e he
    simp only [Bool.false_eq_true, false_iff, not_exists]
    intro v hv
    rw [ofComponent_eq_ok_iff.2 hv] at he
    cases he

theorem toComponent_ne_of_isComponent_eq_false {c : Component} (h : isComponent c = false)
    {v : Version} (hv : v.InRange) : v.toComponent ≠ c := by
  intro hc
  rw [isComponent_eq_true_iff.2 ⟨v, hv, hc⟩] at h
  cases h

theorem marker_lt_toComponent (v : Version) : [marker] < v.toComponent := by
  have hlen : (Bytes.bigEndianOf 6 v.ticks.toNat).length = 6 := by simp
  rw [toComponent]
  cases hd : Bytes.bigEndianOf 6 v.ticks.toNat with
  | nil => simp [hd] at hlen
  | cons d ds => simp

theorem toComponent_lt_last_append {v : Version} (hv : v.InRange) :
    v.toComponent < last.toComponent ++ [0] := by
  apply Bytes.lt_append_of_not_lt
  have hlast : last.InRange := inRange_iff.2 (by simp)
  have hv' := inRange_iff.1 hv
  rw [toComponent_lt_iff hlast hv, lt_iff, ticks_last]
  omega

instance : Std.Trichotomous (α := Version) (· < ·) where
  trichotomous a b hab hba := by
    rw [lt_iff] at hab hba
    rw [eq_iff]
    omega

instance : Trans (α := Version) (· < ·) (· < ·) (· < ·) where
  trans hab hbc := by
    rw [lt_iff] at hab hbc ⊢
    omega

instance : Std.Irrefl (α := Version) (· < ·) where
  irrefl a h := by
    rw [lt_iff] at h
    omega

end Version

end NamedContent
