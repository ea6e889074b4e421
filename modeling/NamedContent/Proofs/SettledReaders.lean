import NamedContent.Proofs.InterestFields

/-!
Readers on input that may be cut short. On any input a reader of an element either runs out of it
or has its result whatever comes after; since it takes a whole form exactly, on a part of one it can
only have run out.
-/

namespace NamedContent

namespace Wire

theorem prefix_append_cases {s t q : Bytes} (h : q <+: s ++ t) :
    (q <+: s ∧ q ≠ s) ∨ ∃ rest, rest <+: t ∧ q = s ++ rest := by
  by_cases hwhole : s <+: q
  · obtain ⟨rest, rfl⟩ := hwhole
    exact .inr ⟨rest, (List.prefix_append_right_inj s).1 h, rfl⟩
  · refine .inl ⟨?_, ?_⟩
    · exact (List.prefix_or_prefix_of_prefix h (List.prefix_append s t)).resolve_right hwhole
    · rintro rfl
      exact hwhole (List.prefix_refl q)

namespace Reader

variable {α β : Type} {r r' : Reader α} {f : α → Reader β} {s rest : Bytes} {a : α}

def Truncated (out : Except WireFault α × Bytes) : Prop := ∃ part, out.1 = .error (.truncated part)

/-- Unless the input ends too early, what comes after it changes nothing and is left. -/
def Settled (r : Reader α) (s : Bytes) : Prop :=
  Truncated (r s) ∨ ∀ t, r (s ++ t) = ((r s).1, (r s).2 ++ t)

def Settles (r : Reader α) : Prop := ∀ s, Settled r s

theorem bind_error {fault : WireFault} (h : r s = (.error fault, rest)) :
    (r >>= f) s = (.error fault, rest) := by
  show Reader.bind r f s = (.error fault, rest)
  rw [Reader.bind, h]

theorem bind_congr (h : r s = r' s) : (r >>= f) s = (r' >>= f) s := by
  show Reader.bind r f s = Reader.bind r' f s
  rw [Reader.bind, h]
  rfl

instance : LawfulMonad Reader :=
  LawfulMonad.mk' Reader
    (fun r => funext fun s => by
      show Reader.bind r Reader.pure s = r s
      rw [Reader.bind]
      cases r s with
      | mk out left => cases out <;> rfl)
    (fun _ _ => rfl)
    (fun r f g => funext fun s => by
      show Reader.bind (Reader.bind r f) g s = Reader.bind r (fun a => Reader.bind (f a) g) s
      rw [Reader.bind, Reader.bind, Reader.bind]
      cases r s with
      | mk out left => cases out <;> rfl)

theorem bind_truncated (h : Truncated (r s)) (f : α → Reader β) : Truncated ((r >>= f) s) := by
  obtain ⟨part, hpart⟩ := h
  exact ⟨part, congrArg Prod.fst (bind_error (Prod.ext hpart rfl))⟩

theorem Settled.congr (h : ∀ t, r (s ++ t) = r' (s ++ t)) (hr : Settled r' s) : Settled r s := by
  have hs : r s = r' s := by
    have := h []
    rwa [List.append_nil] at this
  unfold Settled at *
  rw [hs]
  exact hr.imp_right fun h' t => (h t).trans (h' t)

theorem Settled.bind (hr : Settled r s) (hf : ∀ a rest, r s = (.ok a, rest) → Settled (f a) rest) :
    Settled (r >>= f) s := by
  rcases hr with hcut | hrest
  · exact .inl (bind_truncated hcut f)
  · cases hread : r s with
    | mk out left =>
      rw [hread] at hrest
      cases out with
      | error fault =>
        refine .inr fun t => ?_
        rw [bind_error hread, bind_error (hrest t)]
      | ok a =>
        unfold Settled
        rw [bind_ok hread]
        refine (hf a left hread).imp_right fun hnext t => ?_
        rw [bind_ok (hrest t), hnext t]

theorem Settles.bind (hr : Settles r) (hf : ∀ a, Settles (f a)) : Settles (r >>= f) :=
  fun s => (hr s).bind fun a rest _ => hf a rest

theorem settles_pure (a : α) : Settles (Pure.pure a : Reader α) := fun _ => .inr fun _ => rfl

theorem settles_fail (fault : WireFault) : Settles (fail fault : Reader α) :=
  fun _ => .inr fun _ => rfl

theorem settles_byte (part : String) : Settles (byte part)
  | [] => .inl ⟨part, rfl⟩
  | _ :: _ => .inr fun _ => rfl

theorem settles_tag (expected : String) (t : UInt8) : Settles (tag expected t) :=
  (settles_byte expected).bind fun found => by
    split
    · exact settles_pure ()
    · exact settles_fail _

theorem settles_varintFrom (part : String) (left shift value : Nat) :
    Settles (varintFrom part left shift value) := by
  induction left generalizing shift value with
  | zero => exact settles_fail _
  | succ left ih =>
    refine (settles_byte part).bind fun b => ?_
    dsimp only
    split
    · exact settles_fail _
    · split
      · exact settles_pure _
      · exact ih _ _

theorem settles_bytes (part : String) (n : Nat) : Settles (bytes part n) := by
  intro s
  by_cases h : s.length < n
  · refine .inl ⟨part, ?_⟩
    have hmin : min n s.length < n := Nat.lt_of_le_of_lt (Nat.min_le_right n s.length) h
    simp [bytes, hmin]
  · refine .inr fun t => ?_
    have hle : n ≤ s.length := Nat.le_of_not_lt h
    simp [bytes, List.take_append_of_le_length hle, List.drop_append_of_le_length hle, hle]

theorem settles_payload (part : String) : Settles (payload part) :=
  (settles_varintFrom part _ _ _).bind fun n => settles_bytes part n

theorem settles_leaf (t : UInt8) (expected : String) : Settles (leaf t expected) :=
  (settles_tag expected t).bind fun _ => settles_payload expected

theorem settles_integer (t : UInt8) (element : String) : Settles (integer t element) :=
  (settles_leaf t element).bind fun digits => by
    split
    · exact settles_fail _
    · exact settles_pure _

theorem settles_integer32 (t : UInt8) (element : String) : Settles (integer32 t element) :=
  (settles_integer t element).bind fun value => by
    split
    · exact settles_pure _
    · exact settles_fail _

theorem settles_integer64 (t : UInt8) (element : String) : Settles (integer64 t element) :=
  (settles_integer t element).bind fun _ => settles_pure _

section Many

variable {next : UInt8 → Option (Reader α)} {short : ∀ t r, next t = some r → Shortens r}
  {k : List α → Reader β}

theorem many_bind_stop (h : ∀ u ∈ s.head?, next u = none) :
    (many next short >>= k) s = k [] s :=
  Reads.bind_eq (s := []) (reads_many_nil h)

theorem many_cons {u : UInt8} (hn : next u = some r) (tail : Bytes) :
    many next short (u :: tail) =
      (r >>= fun a => many next short >>= fun as => (Pure.pure (a :: as) : Reader (List α)))
        (u :: tail) := by
  rw [many]
  split
  · rename_i hnone
    rw [hn] at hnone
    cases hnone
  · rename_i r' hsome
    obtain rfl := Option.some.inj (hn.symm.trans hsome)
    split
    · rename_i hread
      rw [bind_error hread]
    · rename_i a mid hread
      rw [bind_ok hread]
      split
      · rename_i hrest
        rw [bind_ok hrest]
        rfl
      · rename_i hrest
        rw [bind_error hrest]

theorem many_bind_cons {u : UInt8} (hn : next u = some r) (tail : Bytes) :
    (many next short >>= k) (u :: tail) =
      (r >>= fun a => many next short >>= fun as => k (a :: as)) (u :: tail) := by
  rw [bind_congr (many_cons hn tail), bind_assoc]
  refine congrFun (congrArg (r >>= ·) (funext fun a => ?_)) (u :: tail)
  exact bind_assoc (many next short : Reader (List α)) _ k

/-- A repetition alone may end with the input; one that something must follow may not. -/
theorem settles_many (hnext : ∀ u r, next u = some r → Settles r) (hk : ∀ as, Settles (k as))
    (hend : ∀ as, Truncated (k as [])) : Settles (many next short >>= k) := by
  intro s
  induction hlength : s.length using Nat.strongRecOn generalizing s k with
  | ind n ih =>
    cases s with
    | nil =>
      rw [Settled, many_bind_stop (by rintro _ ⟨⟩)]
      exact .inl (hend [])
    | cons u tail =>
      cases hn : next u with
      | none =>
        exact Settled.congr (fun _ => many_bind_stop (by rintro _ ⟨⟩; exact hn)) (hk [] (u :: tail))
      | some r =>
        refine Settled.congr (fun t => many_bind_cons hn (tail ++ t)) ?_
        refine (hnext u r hn (u :: tail)).bind fun a rest hread => ?_
        have hless := short u r hn _ a rest hread
        exact ih _ (hlength ▸ hless) (fun as => hk (a :: as)) (fun as => hend (a :: as)) rest rfl

end Many

theorem truncated_close (part : String) : Truncated (close part []) := ⟨part, rfl⟩

theorem settles_nextComponent {u : UInt8} {r : Reader Component} (h : nextComponent u = some r) :
    Settles r := by
  unfold nextComponent at h
  split at h
  · cases h
    exact settles_leaf _ _
  · cases h

theorem settles_name : Settles name := by
  refine (settles_tag _ _).bind fun _ => settles_many (fun _ _ => settles_nextComponent) ?_ ?_
  · exact fun _ => (settles_tag _ _).bind fun _ => settles_pure _
  · exact fun _ => bind_truncated (truncated_close _) _

theorem settles_nextExcludeElement {u : UInt8} {r : Reader ExcludeElement}
    (h : nextExcludeElement u = some r) : Settles r := by
  unfold nextExcludeElement at h
  split at h
  · cases h
    exact (settles_leaf _ _).bind fun _ => settles_pure _
  · split at h
    · cases h
      exact (settles_leaf _ _).bind fun _ => settles_pure _
    · cases h

theorem settles_exclude : Settles exclude := by
  refine (settles_tag _ _).bind fun _ => settles_many (fun _ _ => settles_nextExcludeElement) ?_ ?_
  · refine fun elements => (settles_tag _ _).bind fun _ => ?_
    cases ExcludeFilter.ofElements elements with
    | ok f => exact settles_pure f
    | error fault => exact settles_fail _
  · exact fun _ => bind_truncated (truncated_close _) _

theorem settles_publisher : Settles publisher := by
  refine (settles_byte _).bind fun t => ?_
  cases publisherKind? t with
  | none => exact settles_fail _
  | some kind =>
    refine (settles_payload _).bind fun digits => ?_
    cases Digest.ofBytes? digits with
    | none => exact settles_fail _
    | some id => exact settles_pure _

theorem settles_read (p : Place) : Settles p.read := by
  cases p with
  | prefixCount => exact settles_integer64 _ _
  | additional => exact settles_integer64 _ _
  | publisher => exact settles_publisher
  | exclude => exact settles_exclude
  | order => exact settles_integer32 _ _
  | origin => exact settles_integer32 _ _
  | scope => exact settles_integer32 _ _
  | count => exact settles_integer32 _ _
  | nonce => exact settles_leaf _ _
  | responseFilter => exact settles_leaf _ _

theorem Settles.truncated {w q : Bytes} (hr : Settles r) (hw : Reads r w a []) (hq : q <+: w)
    (hne : q ≠ w) : Truncated (r q) := by
  obtain ⟨t, rfl⟩ := hq
  rcases hr q with hcut | hrest
  · exact hcut
  · rw [Reads, List.append_nil, hrest t] at hw
    have ht : (r q).2 ++ t = [] := congrArg Prod.snd hw
    rw [(List.append_eq_nil_iff.1 ht).2, List.append_nil] at hne
    exact absurd rfl hne

theorem Field.truncated {expected : UInt8 → Bool} {write : α → Bytes} {Fits : α → Prop}
    {low high : UInt8} {q : Bytes} (h : Field expected r write Fits low high) (hr : Settles r)
    (ha : Fits a) (hq : q <+: write a) (hne : q ≠ write a) (hnil : q ≠ []) :
    Truncated (ifAhead expected r q) := by
  obtain ⟨u, tail, hwrite, hbounds⟩ := h.starts a
  obtain ⟨b, rest, rfl⟩ := List.exists_cons_of_ne_nil hnil
  obtain rfl : b = u := by
    rw [hwrite] at hq
    exact (List.cons_prefix_cons.1 hq).1
  rw [ifAhead_expected ((h.expected_iff b).2 hbounds)]
  exact bind_truncated (hr.truncated (h.reads a ha []) hq hne) _

end Reader

end Wire

end NamedContent
