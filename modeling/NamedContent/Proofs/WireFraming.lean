import NamedContent.Proofs.VersionOrder
import NamedContent.Wire.Interest

/-!
Readers of the framing over what its writers wrote. `Reads r s a rest` says that `r` takes exactly
`s` from in front of `rest` and answers `a`. It composes along `bind`, so each element has one
lemma, and `rest` stays arbitrary except for readers that look at the tag ahead.
-/

namespace NamedContent

namespace Bytes

theorem ofBigEndian_bigEndian (n : Nat) : ofBigEndian (bigEndian n) = n := by
  induction n using Nat.strongRecOn with
  | ind n ih =>
    rw [bigEndian]
    split
    · rename_i h
      rw [h]
      rfl
    · rw [ofBigEndian_append, ih _ (by omega), UInt8.toNat_ofNat']
      omega

theorem length_bigEndian_le {k n : Nat} (h : n < 256 ^ k) : (bigEndian n).length ≤ k := by
  induction k generalizing n with
  | zero =>
    obtain rfl : n = 0 := by simpa using h
    rw [bigEndian]
    simp
  | succ k ih =>
    rw [bigEndian]
    split
    · simp
    · rw [List.length_append]
      have hdiv : n / 256 < 256 ^ k := Nat.div_lt_of_lt_mul (by rwa [Nat.mul_comm, ← Nat.pow_succ])
      exact Nat.add_le_add_right (ih hdiv) 1

end Bytes

namespace Wire.Reader

variable {α β : Type} {r : Reader α} {f : α → Reader β} {s t rest : Bytes} {a : α} {b : β}

def Reads (r : Reader α) (s : Bytes) (a : α) (rest : Bytes) : Prop := r (s ++ rest) = (.ok a, rest)

theorem reads_pure (a : α) (rest : Bytes) : Reads (Pure.pure a : Reader α) [] a rest := rfl

/-- Whatever comes after a reader has its answer and what that one has left. -/
theorem Reads.bind_eq (h : Reads r s a rest) : (r >>= f) (s ++ rest) = f a rest := by
  show Reader.bind r f (s ++ rest) = f a rest
  rw [Reader.bind, h]

theorem Reads.bind (h : Reads r s a (t ++ rest)) (h' : Reads (f a) t b rest) :
    Reads (r >>= f) (s ++ t) b rest := by
  rw [Reads, List.append_assoc, h.bind_eq]
  exact h'

theorem Reads.bind_nil (h : Reads r s a rest) (h' : Reads (f a) [] b rest) :
    Reads (r >>= f) s b rest := by
  have := Reads.bind (t := []) h h'
  rwa [List.append_nil] at this

theorem reads_byte (part : String) (b : UInt8) (rest : Bytes) : Reads (byte part) [b] b rest := rfl

theorem reads_tag (expected : String) (t : UInt8) (rest : Bytes) :
    Reads (tag expected t) [t] () rest := by
  refine (reads_byte expected t rest).bind_nil ?_
  rw [if_pos rfl]
  exact reads_pure () rest

theorem reads_varintFrom_byte (part : String) {left shift value v : Nat} {b : UInt8}
    (hlast : left = 0 → b.toNat % 128 ≤ 1)
    (hends : b.toNat < 128 → s = [] ∧ v = value + b.toNat % 128 * 2 ^ shift)
    (hgoes : ¬ b.toNat < 128 →
      Reads (varintFrom part left (shift + 7) (value + b.toNat % 128 * 2 ^ shift)) s v rest) :
    Reads (varintFrom part (left + 1) shift value) (b :: s) v rest := by
  refine Reads.bind (s := [b]) (t := s) (reads_byte part b (s ++ rest)) ?_
  rw [if_neg fun h => Nat.not_lt.2 (hlast h.1) h.2]
  split
  · rename_i h
    obtain ⟨rfl, rfl⟩ := hends h
    exact reads_pure _ rest
  · rename_i h
    exact hgoes h

theorem reads_varintFrom (part : String) {left shift value n : Nat}
    (hwidth : shift + 7 * (left + 1) = 70) (hn : n * 2 ^ shift < 2 ^ 64) (rest : Bytes) :
    Reads (varintFrom part (left + 1) shift value) (Wire.varint n) (value + n * 2 ^ shift)
      rest := by
  induction left generalizing shift value n with
  | zero =>
    obtain rfl : shift = 63 := by omega
    have hlast : n ≤ 1 := by omega
    have hbyte : (UInt8.ofNat n).toNat = n := by
      rw [UInt8.toNat_ofNat']
      omega
    rw [Wire.varint, if_pos (by omega)]
    refine reads_varintFrom_byte part (fun _ => ?_) (fun _ => ⟨rfl, ?_⟩) (fun h => absurd ?_ h)
    · omega
    · rw [hbyte, Nat.mod_eq_of_lt (by omega)]
    · omega
  | succ left ih =>
    rw [Wire.varint]
    split
    · rename_i h
      have hbyte : (UInt8.ofNat n).toNat = n := by
        rw [UInt8.toNat_ofNat']
        omega
      refine reads_varintFrom_byte part nofun (fun _ => ⟨rfl, ?_⟩) (fun hge => absurd ?_ hge)
      · rw [hbyte, Nat.mod_eq_of_lt h]
      · omega
    · rename_i h
      have hbyte : (UInt8.ofNat (n % 128 + 128)).toNat = n % 128 + 128 := by
        rw [UInt8.toNat_ofNat']
        omega
      have hdiv : n / 128 * 2 ^ (shift + 7) + n % 128 * 2 ^ shift = n * 2 ^ shift := by
        rw [Nat.pow_add, Nat.mul_comm (2 ^ shift), ← Nat.mul_assoc, ← Nat.add_mul]
        rw [show n / 128 * 2 ^ 7 + n % 128 = n by omega]
      refine reads_varintFrom_byte part nofun (fun hlt => absurd hlt ?_) (fun _ => ?_)
      · omega
      · rw [hbyte, show (n % 128 + 128) % 128 = n % 128 by omega]
        have hrec := @ih (shift + 7) (value + n % 128 * 2 ^ shift) (n / 128) (by omega) (by omega)
        rwa [Nat.add_assoc, Nat.add_comm (n % 128 * 2 ^ shift), hdiv] at hrec

theorem reads_varint (part : String) {n : Nat} (hn : n < 2 ^ 64) (rest : Bytes) :
    Reads (varint part) (Wire.varint n) n rest := by
  have h := @reads_varintFrom part 9 0 0 n rfl (by simpa using hn) rest
  rwa [Nat.pow_zero, Nat.mul_one, Nat.zero_add] at h

theorem reads_bytes (part : String) (s rest : Bytes) : Reads (bytes part s.length) s s rest := by
  rw [Reads, bytes]
  simp

theorem reads_payload (part : String) {s : Bytes} (hs : s.length < 2 ^ 64) (rest : Bytes) :
    Reads (payload part) (Wire.varint s.length ++ s) s rest :=
  (reads_varint part hs _).bind (reads_bytes part s rest)

theorem reads_leaf (t : UInt8) (expected : String) {s : Bytes} (hs : s.length < 2 ^ 64)
    (rest : Bytes) : Reads (leaf t expected) (Wire.leaf t s) s rest :=
  Reads.bind (s := [t]) (reads_tag expected t _) (reads_payload expected hs rest)

theorem reads_integer (t : UInt8) (element : String) {n : Nat} (hn : n < 2 ^ 64) (rest : Bytes) :
    Reads (integer t element) (Wire.integer t n) n rest := by
  have hlength : (Bytes.bigEndian n).length ≤ maxIntegerLength :=
    Bytes.length_bigEndian_le (k := 8) hn
  have hsize : (Bytes.bigEndian n).length < 2 ^ 64 := Nat.lt_of_le_of_lt hlength (by decide)
  refine (reads_leaf t element hsize rest).bind_nil ?_
  rw [if_neg (Nat.not_lt.2 hlength), Bytes.ofBigEndian_bigEndian]
  exact reads_pure n rest

theorem reads_integer64 (t : UInt8) (element : String) (n : UInt64) (rest : Bytes) :
    Reads (integer64 t element) (Wire.integer t n.toNat) n rest := by
  refine (reads_integer t element n.toNat_lt rest).bind_nil ?_
  rw [UInt64.ofNat_toNat]
  exact reads_pure n rest

theorem reads_integer32 (t : UInt8) (element : String) (n : UInt32) (rest : Bytes) :
    Reads (integer32 t element) (Wire.integer t n.toNat) n rest := by
  have hlt : n.toNat < 2 ^ 64 := Nat.lt_trans n.toNat_lt (by decide)
  refine (reads_integer t element hlt rest).bind_nil ?_
  rw [if_pos n.toNat_lt_size, UInt32.ofNat_toNat]
  exact reads_pure n rest

section Many

variable {next : UInt8 → Option (Reader α)} {short : ∀ t r, next t = some r → Shortens r}

theorem reads_many_nil (h : ∀ t ∈ rest.head?, next t = none) :
    Reads (many next short) [] [] rest := by
  show many next short rest = (.ok [], rest)
  unfold many
  split
  · rfl
  · rename_i t tail
    split
    · rfl
    · rename_i r hn
      rw [h t rfl] at hn
      cases hn

theorem reads_many_cons {u : UInt8} {r : Reader α} {as : List α} (hn : next u = some r)
    (hr : Reads r (u :: s) a (t ++ rest)) (hm : Reads (many next short) t as rest) :
    Reads (many next short) (u :: s ++ t) (a :: as) rest := by
  have hread : r (u :: (s ++ (t ++ rest))) = (.ok a, t ++ rest) := hr
  have hrest : many next short (t ++ rest) = (.ok as, rest) := hm
  show many next short (u :: (s ++ t ++ rest)) = (.ok (a :: as), rest)
  rw [List.append_assoc]
  unfold many
  split
  · rename_i hnone
    rw [hn] at hnone
    cases hnone
  · rename_i r' hsome
    obtain rfl : r = r' := Option.some.inj (hn.symm.trans hsome)
    split
    · rename_i heq
      rw [hread] at heq
      cases heq
    · rename_i b mid heq
      rw [hread] at heq
      cases heq
      rw [hrest]

theorem reads_many {write : α → Bytes} {xs : List α}
    (hnext : ∀ x ∈ xs, ∃ t tail r, write x = t :: tail ∧ next t = some r ∧
      ∀ rest, Reads r (write x) x rest)
    (hstop : ∀ t ∈ rest.head?, next t = none) :
    Reads (many next short) (xs.flatMap write) xs rest := by
  induction xs with
  | nil => exact reads_many_nil hstop
  | cons x xs ih =>
    obtain ⟨t, tail, r, hwrite, hn, hreads⟩ := hnext x List.mem_cons_self
    have hread := hreads (xs.flatMap write ++ rest)
    rw [List.flatMap_cons]
    rw [hwrite] at hread ⊢
    exact reads_many_cons hn hread (ih fun y hy => hnext y (List.mem_cons_of_mem x hy))

end Many

end Wire.Reader

end NamedContent
