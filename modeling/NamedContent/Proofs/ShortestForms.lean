import Mathlib.Tactic.Ring
import Mathlib.Tactic.SplitIfs
import NamedContent.Proofs.ExcludeElements
import NamedContent.Wire.Interest

/-!
Writers give the shortest form. What a reader accepts may have been written otherwise: a length
prefix may go on over zeros, and the payload of a range marker is passed over. `Writes w r` says
of all that `r` accepts that `w` writes the answer in no more bytes, and in the same bytes if
there are as many. It is found from the reader's side, where the bytes need not have come from a
writer: each reader is taken apart into the bytes it took and those it left.
-/

namespace NamedContent.Wire

/-- The first byte string is the shorter one, or both are the same. -/
structure Shortest (s t : Bytes) : Prop where
  length_le : s.length ≤ t.length
  eq_of_length : s.length = t.length → s = t

namespace Shortest

variable {s t u v : Bytes}

theorem refl (s : Bytes) : Shortest s s := ⟨Nat.le_refl _, fun _ => rfl⟩

theorem of_lt (h : s.length < t.length) : Shortest s t :=
  ⟨Nat.le_of_lt h, fun heq => absurd heq (Nat.ne_of_lt h)⟩

theorem lt_of_ne (h : Shortest s t) (hne : s ≠ t) : s.length < t.length :=
  Nat.lt_of_le_of_ne h.length_le fun heq => hne (h.eq_of_length heq)

theorem append (hst : Shortest s t) (huv : Shortest u v) : Shortest (s ++ u) (t ++ v) := by
  have hle := hst.length_le
  have hle' := huv.length_le
  refine ⟨?_, fun heq => ?_⟩
  · simp only [List.length_append]
    omega
  · simp only [List.length_append] at heq
    rw [hst.eq_of_length (by omega), huv.eq_of_length (by omega)]

theorem cons (b : UInt8) (h : Shortest s t) : Shortest (b :: s) (b :: t) :=
  (refl [b]).append h

end Shortest

/-- A number in base 128, lowest digit first; a byte of 128 or more is not the last. -/
inductive Septets : Bytes → Nat → Prop
  | last {b : UInt8} (h : b.toNat < 128) : Septets [b] b.toNat
  | more {b : UInt8} {s : Bytes} {n : Nat} (h : 128 ≤ b.toNat) (hs : Septets s n) :
    Septets (b :: s) (b.toNat % 128 + 128 * n)

namespace Septets

variable {s : Bytes} {n : Nat}

theorem length_pos (h : Septets s n) : 0 < s.length := by
  cases h <;> simp

theorem shortest (h : Septets s n) : Shortest (varint n) s := by
  induction h with
  | @last b h =>
    rw [varint, if_pos h, UInt8.ofNat_toNat]
    exact .refl _
  | @more b s n h hs ih =>
    have hb := b.toNat_lt
    rcases Nat.eq_zero_or_pos n with rfl | hn
    · rw [varint, if_pos (by omega)]
      refine .of_lt ?_
      have := hs.length_pos
      simp only [List.length_cons, List.length_nil]
      omega
    · have hdigit : (b.toNat % 128 + 128 * n) % 128 + 128 = b.toNat := by omega
      have hrest : (b.toNat % 128 + 128 * n) / 128 = n := by omega
      rw [varint, if_neg (by omega), hdigit, hrest, UInt8.ofNat_toNat]
      exact ih.cons b

end Septets

namespace Reader

variable {α β : Type} {r : Reader α} {f : α → Reader β} {write : α → Bytes} {s rest : Bytes}
  {part : String}

theorem bind_eq_ok {b : β} (h : (r >>= f) s = (.ok b, rest)) :
    ∃ a mid, r s = (.ok a, mid) ∧ f a mid = (.ok b, rest) := by
  change Reader.bind r f s = (.ok b, rest) at h
  unfold Reader.bind at h
  split at h
  · rename_i a mid hs
    exact ⟨a, mid, hs, h⟩
  · cases h

theorem pure_eq_ok {a b : α} (h : (Pure.pure a : Reader α) s = (.ok b, rest)) :
    a = b ∧ s = rest := by
  cases h
  exact ⟨rfl, rfl⟩

theorem whole_eq_ok {a : α} (h : whole r s = .ok a) : r s = (.ok a, []) := by
  rw [whole] at h
  split at h
  · cases h
  · rename_i hread
    cases h
    exact hread
  · cases h

theorem byte_eq_ok {b : UInt8} (h : byte part s = (.ok b, rest)) : s = b :: rest := by
  cases s with
  | nil => cases h
  | cons c tail =>
    cases h
    rfl

theorem tag_eq_ok {t : UInt8} {u : Unit} (h : tag part t s = (.ok u, rest)) : s = t :: rest := by
  obtain ⟨found, mid, hbyte, hfound⟩ := bind_eq_ok h
  split at hfound
  · rename_i heq
    obtain ⟨-, rfl⟩ := pure_eq_ok hfound
    rw [byte_eq_ok hbyte, heq]
  · cases hfound

theorem varintFrom_eq_ok {left shift value v : Nat}
    (h : varintFrom part left shift value s = (.ok v, rest)) :
    ∃ digits n, s = digits ++ rest ∧ Septets digits n ∧ v = value + n * 2 ^ shift := by
  induction left generalizing shift value s with
  | zero => cases h
  | succ left ih =>
    obtain ⟨b, mid, hbyte, hmid⟩ := bind_eq_ok h
    have hs := byte_eq_ok hbyte
    dsimp only at hmid
    split at hmid
    · cases hmid
    · split at hmid
      · rename_i hlast
        obtain ⟨rfl, rfl⟩ := pure_eq_ok hmid
        refine ⟨[b], b.toNat, hs, .last hlast, ?_⟩
        rw [Nat.mod_eq_of_lt hlast]
      · rename_i hmore
        obtain ⟨digits, n, rfl, hdigits, rfl⟩ := ih hmid
        refine ⟨b :: digits, _, hs, .more (Nat.not_lt.1 hmore) hdigits, ?_⟩
        ring

theorem varint_eq_ok {n : Nat} (h : varint part s = (.ok n, rest)) :
    ∃ digits, s = digits ++ rest ∧ Septets digits n := by
  obtain ⟨digits, m, hs, hdigits, rfl⟩ := varintFrom_eq_ok h
  refine ⟨digits, hs, ?_⟩
  rwa [Nat.pow_zero, Nat.mul_one, Nat.zero_add]

theorem bytes_eq_ok {n : Nat} {p : Bytes} (h : bytes part n s = (.ok p, rest)) :
    s = p ++ rest ∧ p.length = n := by
  unfold bytes at h
  dsimp only at h
  split at h
  · cases h
  · rename_i hlength
    cases h
    have := List.length_take_le n s
    exact ⟨(List.take_append_drop n s).symm, by omega⟩

theorem payload_eq_ok {p : Bytes} (h : payload part s = (.ok p, rest)) :
    ∃ digits, s = digits ++ p ++ rest ∧ Septets digits p.length := by
  obtain ⟨n, mid, hlength, hbytes⟩ := bind_eq_ok h
  obtain ⟨digits, hs, hdigits⟩ := varint_eq_ok hlength
  obtain ⟨rfl, rfl⟩ := bytes_eq_ok hbytes
  refine ⟨digits, ?_, hdigits⟩
  rw [hs, List.append_assoc]

theorem leaf_eq_ok {t : UInt8} {p : Bytes} (h : leaf t part s = (.ok p, rest)) :
    ∃ digits, s = t :: (digits ++ p) ++ rest ∧ Septets digits p.length := by
  obtain ⟨u, mid, htag, hpayload⟩ := bind_eq_ok h
  obtain ⟨digits, rfl, hdigits⟩ := payload_eq_ok hpayload
  exact ⟨digits, tag_eq_ok htag, hdigits⟩

/-- Of the bytes that `r` takes for an answer, `write` gives the shortest form. -/
def Writes (write : α → Bytes) (r : Reader α) : Prop :=
  ∀ s a rest, r s = (.ok a, rest) → ∃ taken, s = taken ++ rest ∧ Shortest (write a) taken

theorem shortest_leaf (t : UInt8) {digits p : Bytes} (h : Septets digits p.length) :
    Shortest (Wire.leaf t p) (t :: (digits ++ p)) :=
  (h.shortest.append (.refl p)).cons t

theorem writes_leaf (t : UInt8) (expected : String) : Writes (Wire.leaf t) (leaf t expected) := by
  intro s p rest h
  obtain ⟨digits, hs, hdigits⟩ := leaf_eq_ok h
  exact ⟨t :: (digits ++ p), hs, shortest_leaf t hdigits⟩

theorem writes_many {next : UInt8 → Option (Reader α)}
    {short : ∀ t r, next t = some r → Shortens r}
    (hnext : ∀ t r, next t = some r → Writes write r) :
    Writes (fun as => as.flatMap write) (many next short) := by
  intro s
  fun_induction many next short s with
  | case1 =>
    rintro _ _ ⟨⟩
    exact ⟨[], rfl, .refl []⟩
  | case2 =>
    rintro _ _ ⟨⟩
    exact ⟨[], rfl, .refl []⟩
  | case3 => nofun
  | case4 t tail r hr a mid hread _ as left hmany ih =>
    rintro _ _ ⟨⟩
    obtain ⟨taken, hs, hshort⟩ := hnext t r hr _ a mid hread
    obtain ⟨taken', rfl, hshort'⟩ := ih as left hmany
    refine ⟨taken ++ taken', ?_, hshort.append hshort'⟩
    rw [hs, List.append_assoc]
  | case5 => nofun

theorem writes_composite {children : α → Bytes} {t : UInt8} {expected closing : String}
    {g : α → Reader β} {write : β → Bytes} (hr : Writes children r)
    (hg : ∀ a s b rest, g a s = (.ok b, rest) →
      s = rest ∧ write b = composite t (children a)) :
    Writes write (do tag expected t; let a ← r; close closing; g a) := by
  intro s b rest h
  obtain ⟨u, inside, htag, hinside⟩ := bind_eq_ok h
  obtain ⟨a, ending, hchildren, hending⟩ := bind_eq_ok hinside
  obtain ⟨u', left, hclose, hleft⟩ := bind_eq_ok hending
  obtain ⟨taken, htaken, hshort⟩ := hr _ _ _ hchildren
  obtain ⟨rfl, hwrite⟩ := hg _ _ _ _ hleft
  refine ⟨t :: taken ++ [Tag.close], ?_, ?_⟩
  · rw [tag_eq_ok htag, htaken, tag_eq_ok hclose]
    simp
  · rw [hwrite]
    exact (hshort.cons t).append (.refl _)

theorem writes_nextComponent {t : UInt8} {r : Reader Component} (h : nextComponent t = some r) :
    Writes (Wire.leaf Tag.component) r := by
  unfold nextComponent at h
  split at h
  · cases h
    exact writes_leaf _ _
  · cases h

theorem writes_name : Writes Wire.name name := by
  refine writes_composite (writes_many fun _ _ => writes_nextComponent) ?_
  intro components s n rest h
  obtain ⟨rfl, rfl⟩ := pure_eq_ok h
  exact ⟨rfl, rfl⟩

theorem shortest_any {digits p : Bytes} (h : Septets digits p.length) :
    Shortest (excludeElement .any) (Tag.any :: (digits ++ p)) := by
  cases p with
  | nil => exact shortest_leaf Tag.any h
  | cons b p =>
    refine .of_lt ?_
    have hmarker : (excludeElement .any).length = 2 := by cbv
    have hdigits := h.length_pos
    simp only [hmarker, List.length_cons, List.length_append]
    omega

theorem writes_nextExcludeElement {t : UInt8} {r : Reader ExcludeElement}
    (h : nextExcludeElement t = some r) : Writes excludeElement r := by
  unfold nextExcludeElement at h
  split at h
  · cases h
    intro s e rest hread
    obtain ⟨c, mid, hleaf, hmid⟩ := bind_eq_ok hread
    obtain ⟨rfl, rfl⟩ := pure_eq_ok hmid
    exact writes_leaf _ _ _ _ _ hleaf
  · split at h
    · cases h
      intro s e rest hread
      obtain ⟨p, mid, hleaf, hmid⟩ := bind_eq_ok hread
      obtain ⟨rfl, rfl⟩ := pure_eq_ok hmid
      obtain ⟨digits, hs, hdigits⟩ := leaf_eq_ok hleaf
      exact ⟨_, hs, shortest_any hdigits⟩
    · cases h

theorem writes_exclude : Writes Wire.exclude exclude := by
  refine writes_composite (writes_many fun _ _ => writes_nextExcludeElement) ?_
  intro elements s f rest h
  cases hf : ExcludeFilter.ofElements elements with
  | error fault =>
    rw [hf] at h
    cases h
  | ok g =>
    rw [hf] at h
    obtain ⟨rfl, rfl⟩ := pure_eq_ok h
    rw [Wire.exclude, ExcludeFilter.elements_of_ofElements hf]
    exact ⟨rfl, rfl⟩

theorem publisherTag_of_publisherKind? {t : UInt8} {kind : PublisherKind}
    (h : publisherKind? t = some kind) : publisherTag kind = t := by
  unfold publisherKind? at h
  split_ifs at h with hkey hcertificate hissuer hlast <;> cases h
  · exact hkey.symm
  · exact hcertificate.symm
  · exact hissuer.symm
  · exact hlast.symm

theorem writes_publisher : Writes Wire.publisher publisher := by
  intro s p rest h
  obtain ⟨t, mid, htag, hmid⟩ := bind_eq_ok h
  cases hkind : publisherKind? t with
  | none =>
    rw [hkind] at hmid
    cases hmid
  | some kind =>
    rw [hkind] at hmid
    obtain ⟨key, left, hkey, hleft⟩ := bind_eq_ok hmid
    obtain ⟨digits, rfl, hdigits⟩ := payload_eq_ok hkey
    cases hid : Digest.ofBytes? key with
    | none =>
      rw [hid] at hleft
      cases hleft
    | some id =>
      rw [hid] at hleft
      obtain ⟨rfl, rfl⟩ := pure_eq_ok hleft
      refine ⟨t :: (digits ++ key), byte_eq_ok htag, ?_⟩
      rw [Wire.publisher, publisherTag_of_publisherKind? hkind, Digest.bytes_of_ofBytes? hid]
      exact shortest_leaf t hdigits

end Reader

/-- Names, exclude filters and publishers are written in the shortest of the forms in which they
are read. -/
theorem forms_shortest (w : Bytes) :
    (∀ n, Reader.whole Reader.name w = .ok n → Shortest (name n) w) ∧
      (∀ f, Reader.whole Reader.exclude w = .ok f → Shortest (exclude f) w) ∧
        ∀ p, Reader.whole Reader.publisher w = .ok p → Shortest (publisher p) w := by
  have hwhole : ∀ {α : Type} {r : Reader α} {write : α → Bytes}, Reader.Writes write r →
      ∀ a, Reader.whole r w = .ok a → Shortest (write a) w := by
    intro α r write hwrites a h
    obtain ⟨taken, hw, hshort⟩ := hwrites w a [] (Reader.whole_eq_ok h)
    rw [List.append_nil] at hw
    exact hw ▸ hshort
  exact ⟨hwhole Reader.writes_name, hwhole Reader.writes_exclude, hwhole Reader.writes_publisher⟩

theorem forms_shortest_sample :
    Reader.whole Reader.exclude [0x0a, 0x0b, 0x81, 0x00, 0x2a, 0x00] =
        .ok ⟨[], [true], by decide, by decide⟩ ∧
      (exclude ⟨[], [true], by decide, by decide⟩).length < 6 := by
  have hread : Reader.whole Reader.exclude [0x0a, 0x0b, 0x81, 0x00, 0x2a, 0x00] =
      .ok ⟨[], [true], by decide, by decide⟩ := by cbv
  have hwritten : exclude ⟨[], [true], by decide, by decide⟩ = [0x0a, 0x0b, 0x00, 0x00] := by cbv
  refine ⟨hread, ((forms_shortest _).2.1 _ hread).lt_of_ne ?_⟩
  rw [hwritten]
  decide

end NamedContent.Wire
