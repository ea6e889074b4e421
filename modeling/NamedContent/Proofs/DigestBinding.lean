import NamedContent.Interest.Match
import NamedContent.Proofs.VersionOrder

/-! What the digest of a content binds. Each component stands behind its length, so a name can be
read back from the front of what is hashed; but nothing says where the name ends. Contents of one
name have the same input to the hash only if they are equal. A content of a longer name shares its
input with an unsigned one of a shorter name, whose payload goes on with what is left of the
other. -/

namespace NamedContent

theorem Bytes.bigEndianOf_succ (width n : Nat) :
    bigEndianOf (width + 1) n = UInt8.ofNat (n / 256 ^ width) :: bigEndianOf width n := by
  induction width generalizing n with
  | zero => simp [bigEndianOf]
  | succ width ih =>
    have hdiv : n / 256 / 256 ^ width = n / 256 ^ (width + 1) := by
      rw [Nat.div_div_eq_div_mul, Nat.pow_succ']
    rw [bigEndianOf, ih, hdiv]
    rfl

def Sha256.Collision (m m' : Bytes) : Prop := m ≠ m' ∧ sha256 m = sha256 m'

namespace Content

def Sized (c : Content) : Prop := ∀ x ∈ c.name.components, x.length < 2 ^ 64

/-- The content has a beginning of the name of `c`, and its flag, key and payload are all that is
hashed of `c` after that. -/
def Shadows (short c : Content) : Prop :=
  ∃ x rest, c.name.components = short.name.components ++ x :: rest ∧
    publisherInput short.publisher ++ short.payload =
      (x :: rest).flatMap componentInput ++ publisherInput c.publisher ++ c.payload

section Inputs

variable {x y : Component} {xs ys : List Component} {s t : Bytes}

theorem componentInput_append_inj (hx : x.length < 2 ^ 64) (hy : y.length < 2 ^ 64)
    (h : componentInput x ++ s = componentInput y ++ t) : x = y ∧ s = t := by
  rw [componentInput, componentInput, List.append_assoc, List.append_assoc] at h
  obtain ⟨hlength, hrest⟩ := List.append_inj h (by simp)
  have hsame : x.length = y.length := (Bytes.bigEndianOf_inj hx hy).1 hlength
  exact List.append_inj hrest hsame

theorem flatMap_componentInput_cases (hxs : ∀ x ∈ xs, x.length < 2 ^ 64)
    (hys : ∀ y ∈ ys, y.length < 2 ^ 64)
    (h : xs.flatMap componentInput ++ s = ys.flatMap componentInput ++ t) :
    (∃ zs, xs = ys ++ zs ∧ t = zs.flatMap componentInput ++ s) ∨
      ∃ zs, ys = xs ++ zs ∧ s = zs.flatMap componentInput ++ t := by
  induction xs generalizing ys with
  | nil => exact .inr ⟨ys, rfl, h⟩
  | cons x xs ih =>
    cases ys with
    | nil => exact .inl ⟨x :: xs, rfl, h.symm⟩
    | cons y ys =>
      rw [List.flatMap_cons, List.flatMap_cons, List.append_assoc, List.append_assoc] at h
      obtain ⟨rfl, hrest⟩ := componentInput_append_inj (hxs x List.mem_cons_self)
        (hys y List.mem_cons_self) h
      have hxs' : ∀ z ∈ xs, z.length < 2 ^ 64 := fun z hz => hxs z (List.mem_cons_of_mem x hz)
      have hys' : ∀ z ∈ ys, z.length < 2 ^ 64 := fun z hz => hys z (List.mem_cons_of_mem x hz)
      rcases ih hxs' hys' hrest with ⟨zs, rfl, ht⟩ | ⟨zs, rfl, hs⟩
      · exact .inl ⟨zs, rfl, ht⟩
      · exact .inr ⟨zs, rfl, hs⟩

theorem publisherInput_append_inj {p q : Option Digest}
    (h : publisherInput p ++ s = publisherInput q ++ t) : p = q ∧ s = t := by
  cases p with
  | none =>
    cases q with
    | none => exact ⟨rfl, by simpa [publisherInput] using h⟩
    | some key => simp [publisherInput] at h
  | some key =>
    cases q with
    | none => simp [publisherInput] at h
    | some other =>
      simp only [publisherInput, List.cons_append, List.cons.injEq, true_and] at h
      obtain ⟨hkey, hrest⟩ := List.append_inj h (key.length_bytes.trans other.length_bytes.symm)
      obtain ⟨bytes, hbytes⟩ := key
      obtain ⟨others, hothers⟩ := other
      subst hkey
      exact ⟨rfl, hrest⟩

end Inputs

variable {c c' : Content}

theorem eq_of_digestInput_eq (hname : c.name = c'.name) (h : c.digestInput = c'.digestInput) :
    c = c' := by
  obtain ⟨name, publisher, payload⟩ := c
  obtain ⟨name', publisher', payload'⟩ := c'
  subst hname
  rw [digestInput, digestInput, List.append_assoc, List.append_assoc] at h
  obtain ⟨rfl, rfl⟩ := publisherInput_append_inj (List.append_cancel_left h)
  rfl

theorem Shadows.digestInput_eq (h : c.Shadows c') : c.digestInput = c'.digestInput := by
  obtain ⟨x, rest, hname, hrest⟩ := h
  rw [digestInput, List.append_assoc, hrest, digestInput, hname, List.flatMap_append]
  simp only [List.append_assoc]

theorem Shadows.ne (h : c.Shadows c') : c ≠ c' := by
  rintro rfl
  obtain ⟨x, rest, hname, -⟩ := h
  have hlength := congrArg List.length hname
  simp at hlength

section Unsigned

theorem componentInput_eq_zero_cons {x : Component} (hx : x.length < 2 ^ 56) :
    componentInput x = 0 :: (Bytes.bigEndianOf 7 x.length ++ x) := by
  have hdiv : x.length / 256 ^ 7 = 0 := Nat.div_eq_of_lt hx
  rw [componentInput, Bytes.bigEndianOf_succ, hdiv]
  rfl

/-- What shadows is unsigned: the first byte of a length stands where its flag is. -/
theorem Shadows.unsigned (h : c.Shadows c') (hc' : ∀ x ∈ c'.name.components, x.length < 2 ^ 56) :
    c.publisher = none := by
  obtain ⟨x, rest, hname, hrest⟩ := h
  have hx : x.length < 2 ^ 56 := hc' x (by simp [hname])
  rw [List.flatMap_cons, componentInput_eq_zero_cons hx] at hrest
  cases hkey : c.publisher with
  | none => rfl
  | some key => simp [hkey, publisherInput] at hrest

theorem exists_shadows {name : List Component} {x : Component} {rest : List Component}
    (hname : c.name.components = name ++ x :: rest) (hx : x.length < 2 ^ 56) :
    ∃ short : Content, short.Shadows c ∧ short.name = ⟨name⟩ ∧ short.publisher = none := by
  refine ⟨⟨⟨name⟩, none, Bytes.bigEndianOf 7 x.length ++ x ++
    (rest.flatMap componentInput ++ publisherInput c.publisher ++ c.payload)⟩,
    ⟨x, rest, hname, ?_⟩, rfl, rfl⟩
  rw [List.flatMap_cons, componentInput_eq_zero_cons hx]
  simp [publisherInput]

end Unsigned

theorem Shadows.accepts (h : c.Shadows c') (trust : Trust) :
    ({ name := c.name.append c'.digest.bytes } : Interest).accepts trust c = true := by
  have hdigest : c'.digest = c.digest := by rw [digest, digest, h.digestInput_eq]
  have hlength : (c.name.append c.digest.bytes).length = c.name.length + 1 := by simp
  rw [hdigest, Interest.accepts, Interest.judgeContent, Interest.sharedCount]
  simp [hlength, Interest.judge, Interest.isPrefixOf, Interest.namesDigest, Interest.sharedCount,
    Interest.additionalMet, Interest.orderMet, Interest.excludeMet, Interest.judgePublisher,
    Judgement.resolve, fullName, Name.agreesUpTo]

theorem digestInput_cases (hc : c.Sized) (hc' : c'.Sized) (h : c.digestInput = c'.digestInput) :
    c = c' ∨ c.Shadows c' ∨ c'.Shadows c := by
  have hinput := h
  rw [digestInput, digestInput, List.append_assoc, List.append_assoc] at h
  rcases flatMap_componentInput_cases hc hc' h with ⟨zs, hname, hrest⟩ | ⟨zs, hname, hrest⟩
  · cases zs with
    | nil =>
      rw [List.append_nil] at hname
      exact .inl (eq_of_digestInput_eq (congrArg Name.mk hname) hinput)
    | cons x rest => exact .inr (.inr ⟨x, rest, hname, by rw [hrest, List.append_assoc]⟩)
  · cases zs with
    | nil =>
      rw [List.append_nil] at hname
      exact .inl (eq_of_digestInput_eq (congrArg Name.mk hname.symm) hinput)
    | cons x rest => exact .inr (.inl ⟨x, rest, hname, by rw [hrest, List.append_assoc]⟩)

/-- The bytes hashed bind every field but for shadowing, and two contents of one digest are equal,
shadow each other or are a collision of the hash. -/
theorem digest_binds_unless_shadowed (hc : c.Sized) (hc' : c'.Sized) :
    (c.digestInput = c'.digestInput ↔ c = c' ∨ c.Shadows c' ∨ c'.Shadows c) ∧
      (c.digest = c'.digest ↔
        (c = c' ∨ c.Shadows c' ∨ c'.Shadows c) ∨
          Sha256.Collision c.digestInput c'.digestInput) := by
  have hinput : c.digestInput = c'.digestInput ↔ c = c' ∨ c.Shadows c' ∨ c'.Shadows c := by
    refine ⟨digestInput_cases hc hc', ?_⟩
    rintro (rfl | h | h)
    · rfl
    · exact h.digestInput_eq
    · exact h.digestInput_eq.symm
  refine ⟨hinput, ?_⟩
  rw [← hinput, digest, digest, Sha256.Collision]
  constructor
  · intro h
    by_cases heq : c.digestInput = c'.digestInput
    · exact .inl heq
    · exact .inr ⟨heq, h⟩
  · rintro (h | ⟨-, h⟩)
    · rw [h]
    · exact h

def sampleSigned : Content :=
  ⟨⟨[[0x61], [0x62]]⟩, some ⟨List.replicate 32 7, rfl⟩, [0x68, 0x69]⟩

def sampleShadow : Content :=
  ⟨⟨[[0x61]]⟩, none, [0, 0, 0, 0, 0, 0, 1, 0x62, 1] ++ List.replicate 32 7 ++ [0x68, 0x69]⟩

theorem digest_binds_unless_shadowed_sample :
    sampleShadow.Sized ∧ sampleSigned.Sized ∧
      (sampleShadow.digestInput = sampleSigned.digestInput ↔
        sampleShadow = sampleSigned ∨ sampleShadow.Shadows sampleSigned ∨
          sampleSigned.Shadows sampleShadow) := by
  have hshadow : sampleShadow.Sized := by simp [Sized, sampleShadow]
  have hsigned : sampleSigned.Sized := by simp [Sized, sampleSigned]
  exact ⟨hshadow, hsigned, (digest_binds_unless_shadowed hshadow hsigned).1⟩

/-- Different names, signers and payloads may be hashed as the same bytes. -/
theorem digestInput_not_injective :
    sampleShadow.digestInput = sampleSigned.digestInput ∧
      sampleShadow.name ≠ sampleSigned.name ∧
      sampleShadow.publisher ≠ sampleSigned.publisher ∧
      sampleShadow.payload ≠ sampleSigned.payload := by
  decide

end Content

end NamedContent
