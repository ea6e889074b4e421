import NamedContent.Proofs.VersionOrder

/-!
Versions as times. A second has 4096 ticks, so a count of milliseconds is rounded down on its way
to ticks and rounded down again on its way back; the two roundings cost one millisecond at most,
and no conversion of a version moves it up. The conversions run on words: of 128 bits towards
ticks, of 64 bits towards milliseconds. In either the products fit, so the words are exact.
-/

namespace NamedContent

namespace Version

theorem ticks_clamp (ticks : Nat) : (clamp ticks).ticks.toNat = min ticks (2 ^ 48 - 1) := by
  have hmax : maxTicks.toNat = 2 ^ 48 - 1 := rfl
  rw [clamp, UInt64.toNat_ofNat', hmax]
  omega

theorem clamp_inRange (ticks : Nat) : (clamp ticks).InRange := by
  rw [inRange_iff, ticks_clamp]
  omega

theorem clamp_le_clamp {ticks more : Nat} (h : ticks ≤ more) : clamp ticks ≤ clamp more := by
  rw [le_iff, ticks_clamp, ticks_clamp]
  omega

theorem clamp_eq_last {ticks : Nat} (h : last.ticks.toNat ≤ ticks) : clamp ticks = last := by
  rw [ticks_last] at h
  rw [eq_iff, ticks_clamp, ticks_last]
  omega

/-- Ticks of 128 bits, cut down to 64 if they fit and to the last version if they do not. -/
def clampInWords (ticks : BitVec 128) : Version :=
  let narrow := if ticks.toNat < UInt64.size then UInt64.ofNat ticks.toNat else maxTicks
  ⟨min narrow maxTicks⟩

def ticksInWords (count perSecond : BitVec 128) : BitVec 128 := count * 4096 / perSecond

def ofMillisInWords (millis : UInt64) : Version :=
  clampInWords (ticksInWords (millis.toBitVec.setWidth 128) 1000)

def ofDurationInWords (secs : UInt64) (nanos : UInt32) : Version :=
  let sinceEpoch := secs.toBitVec.setWidth 128 * 1000000000 + nanos.toBitVec.setWidth 128
  clampInWords (ticksInWords sinceEpoch 1000000000)

theorem clampInWords_eq (ticks : BitVec 128) : clampInWords ticks = clamp ticks.toNat := by
  have hmax : maxTicks.toNat = 2 ^ 48 - 1 := rfl
  have hsize : UInt64.size = 2 ^ 64 := rfl
  rw [eq_iff, ticks_clamp, clampInWords]
  dsimp only
  rw [UInt64.toNat_min, hmax]
  split
  · rw [UInt64.toNat_ofNat']
    omega
  · omega

theorem toNat_ticksInWords {count perSecond : BitVec 128} (h : count.toNat * 4096 < 2 ^ 128) :
    (ticksInWords count perSecond).toNat =
      count.toNat * ticksPerSecond / perSecond.toNat := by
  have hproduct : (count * 4096).toNat = count.toNat * ticksPerSecond := by
    rw [BitVec.toNat_mul]
    exact Nat.mod_eq_of_lt h
  rw [ticksInWords, BitVec.toNat_udiv, hproduct]

theorem ofMillisInWords_eq (millis : UInt64) : ofMillisInWords millis = ofMillis millis := by
  have hmillis := millis.toNat_lt
  have hcount : (millis.toBitVec.setWidth 128).toNat = millis.toNat := by
    rw [BitVec.toNat_setWidth, UInt64.toNat_toBitVec]
    omega
  rw [ofMillisInWords, clampInWords_eq, toNat_ticksInWords (by omega), hcount]
  rfl

theorem ofDurationInWords_eq (secs : UInt64) (nanos : UInt32) :
    ofDurationInWords secs nanos = ofDuration (.ofParts secs.toNat nanos.toNat) := by
  have hsecs := secs.toNat_lt
  have hnanos := nanos.toNat_lt
  have hcount : (secs.toBitVec.setWidth 128 * 1000000000 + nanos.toBitVec.setWidth 128).toNat =
      secs.toNat * 1000000000 + nanos.toNat := by
    have hsecond : (1000000000 : BitVec 128).toNat = 1000000000 := rfl
    rw [BitVec.toNat_add, BitVec.toNat_mul, BitVec.toNat_setWidth, BitVec.toNat_setWidth,
      UInt64.toNat_toBitVec, UInt32.toNat_toBitVec, hsecond]
    omega
  rw [ofDurationInWords, clampInWords_eq, toNat_ticksInWords (by omega), hcount]
  rfl

variable {v : Version} {m : UInt64}

theorem InRange.millis_fit (h : v.InRange) : v.ticks.toNat * 1000 < 2 ^ 64 := by
  have := inRange_iff.1 h
  omega

theorem InRange.toNat_millis (h : v.InRange) :
    v.millis.toNat = v.ticks.toNat * 1000 / ticksPerSecond := by
  have hproduct : (v.ticks * 1000).toNat = v.ticks.toNat * 1000 := by
    rw [UInt64.toNat_mul]
    exact Nat.mod_eq_of_lt h.millis_fit
  rw [millis, UInt64.toNat_div, hproduct]
  rfl

theorem ofMillis_inRange (m : UInt64) : (ofMillis m).InRange := clamp_inRange _

theorem ofMillis_mono {m' : UInt64} (h : m ≤ m') : ofMillis m ≤ ofMillis m' := by
  have hcount : m.toNat ≤ m'.toNat := UInt64.le_iff_toNat_le.1 h
  exact clamp_le_clamp (Nat.div_le_div_right (Nat.mul_le_mul_right ticksPerSecond hcount))

theorem ofDuration_eq_ofMillis {d : Duration} (h : d.nanos = m.toNat * 1000000) :
    ofDuration d = ofMillis m := by
  have hsame : d.nanos * ticksPerSecond / Duration.nanosPerSecond =
      m.toNat * ticksPerSecond / 1000 := by
    rw [h, ticksPerSecond, Duration.nanosPerSecond]
    omega
  rw [ofDuration, ofMillis, hsame]

theorem millis_ofMillis (h : m.toNat * ticksPerSecond / 1000 ≤ last.ticks.toNat) :
    (ofMillis m).millis = m ∨ (ofMillis m).millis.toNat + 1 = m.toNat := by
  have hticks : (ofMillis m).ticks.toNat = m.toNat * ticksPerSecond / 1000 := by
    rw [ticks_last] at h
    rw [ofMillis, ticks_clamp]
    omega
  have hback := (ofMillis_inRange m).toNat_millis
  rw [hticks, ticksPerSecond] at hback
  rw [← UInt64.toNat_inj, hback]
  omega

theorem ofMillis_millis_le (h : v.InRange) : ofMillis v.millis ≤ v := by
  have hback : v.millis.toNat * ticksPerSecond / 1000 ≤ v.ticks.toNat := by
    rw [h.toNat_millis, ticksPerSecond]
    omega
  rw [le_iff, ofMillis, ticks_clamp]
  omega

/-- Milliseconds become a version in range, later ones no earlier version, and lose one
millisecond at most on the way there and back, unless they are beyond the last version and become
that. A duration of whole milliseconds becomes the same version. On the way back the words of a
version in range are exact, and going on from there does not pass the version. -/
theorem millis_tight :
    (∀ m : UInt64, ofMillisInWords m = ofMillis m ∧ (ofMillis m).InRange ∧
      (∀ m', m ≤ m' → ofMillis m ≤ ofMillis m') ∧
      (m.toNat * 4096 / 1000 ≤ last.ticks.toNat →
        (ofMillis m).millis = m ∨ (ofMillis m).millis.toNat + 1 = m.toNat) ∧
      (last.ticks.toNat < m.toNat * 4096 / 1000 → ofMillis m = last) ∧
      ∀ d : Duration, d.nanos = m.toNat * 1000000 → ofDuration d = ofMillis m) ∧
      (∀ secs nanos, ofDurationInWords secs nanos =
        ofDuration (.ofParts secs.toNat nanos.toNat)) ∧
      ∀ v : Version, v.InRange → v.ticks.toNat * 1000 < 2 ^ 64 ∧
        v.millis.toNat = v.ticks.toNat * 1000 / 4096 ∧ ofMillis v.millis ≤ v := by
  refine ⟨fun m => ⟨ofMillisInWords_eq m, ofMillis_inRange m, fun m' => ofMillis_mono,
    millis_ofMillis, fun h => clamp_eq_last (Nat.le_of_lt h), fun d => ofDuration_eq_ofMillis⟩,
    ofDurationInWords_eq, fun v hv => ?_⟩
  exact ⟨hv.millis_fit, hv.toNat_millis, ofMillis_millis_le hv⟩

theorem millis_tight_sample :
    ((ofMillis 1).millis = 1 ∨ (ofMillis 1).millis.toNat + 1 = 1) ∧
      ofMillis 1 ≤ ofMillis 1000 ∧ ofMillis 0x8000000000000000 = last ∧
      ofDuration ⟨1000000⟩ = ofMillis 1 ∧ last.InRange ∧ ofMillis last.millis ≤ last := by
  obtain ⟨-, -, hmono, hback, -, hduration⟩ := millis_tight.1 1
  obtain ⟨-, -, -, -, hbeyond, -⟩ := millis_tight.1 0x8000000000000000
  have hlast : last.InRange := by decide
  exact ⟨hback (by decide), hmono 1000 (by decide), hbeyond (by decide), hduration ⟨1000000⟩ rfl,
    hlast, (millis_tight.2.2 last hlast).2.2⟩

end Version

end NamedContent
