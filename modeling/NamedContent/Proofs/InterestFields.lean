import NamedContent.Proofs.WireRoundTrip

/-!
The optional fields of an Interest as one list of places in wire order. Writing the fields is one
pass over the places and so is reading them: each is told by the tag ahead, and a tag belongs to
one place at most. What holds of the fields together is then an induction on the places that are
left, whichever of them are filled.
-/

namespace NamedContent

namespace Wire

inductive Place where
  | prefixCount
  | additional
  | publisher
  | exclude
  | order
  | origin
  | scope
  | count
  | nonce
  | responseFilter
  deriving DecidableEq

namespace Place

def all : List Place :=
  [prefixCount, additional, publisher, exclude, order, origin, scope, count, nonce, responseFilter]

theorem mem_all (p : Place) : p ∈ all := by cases p <;> decide

theorem nodup_all : all.Nodup := by decide

def position (p : Place) : Nat := all.idxOf p

theorem pairwise_all : all.Pairwise (·.position < ·.position) := by decide

def Value : Place → Type
  | prefixCount | additional => UInt64
  | publisher => PublisherId
  | exclude => ExcludeFilter
  | order | origin | scope | count => UInt32
  | nonce | responseFilter => Bytes

def low : Place → UInt8
  | prefixCount => Tag.prefixCount
  | additional => Tag.additional
  | publisher => Tag.publisherKey
  | exclude => Tag.exclude
  | order => Tag.order
  | origin => Tag.origin
  | scope => Tag.scope
  | count => Tag.count
  | nonce => Tag.nonce
  | responseFilter => Tag.responseFilter

def high : Place → UInt8
  | publisher => Tag.publisherIssuerCertificate
  | p => p.low

theorem high_lt_low {p q : Place} (h : p.position < q.position) : p.high < q.low := by
  cases p <;> cases q <;> revert h <;> decide

def expects (p : Place) (t : UInt8) : Bool :=
  match p with
  | publisher => (publisherKind? t).isSome
  | p => t == p.low

def read : (p : Place) → Reader p.Value
  | prefixCount => Reader.integer64 Tag.prefixCount "NameComponentCount"
  | additional => Reader.integer64 Tag.additional "AdditionalNameComponents"
  | publisher => Reader.publisher
  | exclude => Reader.exclude
  | order => Reader.integer32 Tag.order "OrderPreference"
  | origin => Reader.integer32 Tag.origin "AnswerOriginKind"
  | scope => Reader.integer32 Tag.scope "Scope"
  | count => Reader.integer32 Tag.count "Count"
  | nonce => Reader.leaf Tag.nonce "Nonce"
  | responseFilter => Reader.leaf Tag.responseFilter "ResponseFilter"

def write : (p : Place) → p.Value → Bytes
  | prefixCount => fun n : UInt64 => integer Tag.prefixCount n.toNat
  | additional => fun n : UInt64 => integer Tag.additional n.toNat
  | publisher => Wire.publisher
  | exclude => Wire.exclude
  | order => fun n : UInt32 => integer Tag.order n.toNat
  | origin => fun n : UInt32 => integer Tag.origin n.toNat
  | scope => fun n : UInt32 => integer Tag.scope n.toNat
  | count => fun n : UInt32 => integer Tag.count n.toNat
  | nonce => leaf Tag.nonce
  | responseFilter => leaf Tag.responseFilter

def Fits : (p : Place) → p.Value → Prop
  | exclude => fun f : ExcludeFilter => ∀ c ∈ f.components, Sized c
  | nonce => Sized
  | responseFilter => Sized
  | _ => fun _ => True

theorem field (p : Place) : Reader.Field p.expects p.read p.write p.Fits p.low p.high := by
  cases p with
  | prefixCount => exact Reader.field_integer64 _ _ (by decide)
  | additional => exact Reader.field_integer64 _ _ (by decide)
  | publisher => exact Reader.field_publisher
  | exclude => exact Reader.field_exclude
  | order => exact Reader.field_integer32 _ _ (by decide)
  | origin => exact Reader.field_integer32 _ _ (by decide)
  | scope => exact Reader.field_integer32 _ _ (by decide)
  | count => exact Reader.field_integer32 _ _ (by decide)
  | nonce => exact Reader.field_leaf _ _ (by decide)
  | responseFilter => exact Reader.field_leaf _ _ (by decide)

theorem not_expects_close (p : Place) : p.expects Tag.close = false := by cases p <;> decide

theorem eq_of_expects {p q : Place} {t : UInt8} (hp : p.expects t = true)
    (hq : q.expects t = true) : p = q := by
  obtain ⟨hplow, hphigh⟩ := (p.field.expected_iff t).1 hp
  obtain ⟨hqlow, hqhigh⟩ := (q.field.expected_iff t).1 hq
  rcases Nat.lt_trichotomy p.position q.position with hlt | heq | hgt
  · exact absurd (UInt8.lt_of_le_of_lt hphigh (high_lt_low hlt)) (UInt8.not_lt.2 hqlow)
  · exact (List.idxOf_inj (mem_all p)).1 heq
  · exact absurd (UInt8.lt_of_le_of_lt hqhigh (high_lt_low hgt)) (UInt8.not_lt.2 hplow)

end Place

abbrev Fields : Type := (p : Place) → Option p.Value

end Wire

namespace Interest

open Wire

def get (i : Interest) : Fields
  | .prefixCount => i.prefixCount
  | .additional => i.additional
  | .publisher => i.publisher
  | .exclude => i.exclude
  | .order => i.order.map (·.bits)
  | .origin => i.origin.map (·.bits)
  | .scope => i.scope
  | .count => i.count
  | .nonce => i.nonce
  | .responseFilter => i.responseFilter

def set (i : Interest) : (p : Place) → Option p.Value → Interest
  | .prefixCount, x => { i with prefixCount := x }
  | .additional, x => { i with additional := x }
  | .publisher, x => { i with publisher := x }
  | .exclude, x => { i with exclude := x }
  | .order, x => { i with order := x.map .mk }
  | .origin, x => { i with origin := x.map .mk }
  | .scope, x => { i with scope := x }
  | .count, x => { i with count := x }
  | .nonce, x => { i with nonce := x }
  | .responseFilter, x => { i with responseFilter := x }

@[simp] theorem name_set (i : Interest) (p : Place) (x : Option p.Value) :
    (i.set p x).name = i.name := by
  cases p <;> rfl

@[simp] theorem get_set_self (i : Interest) (p : Place) (x : Option p.Value) :
    (i.set p x).get p = x := by
  cases p <;> cases x <;> rfl

theorem get_set_of_ne (i : Interest) {p q : Place} (x : Option p.Value) (h : p ≠ q) :
    (i.set p x).get q = i.get q := by
  cases p <;> cases q <;> first | rfl | exact absurd rfl h

theorem ext_get {i j : Interest} (hname : i.name = j.name) (hget : ∀ p, i.get p = j.get p) :
    i = j := by
  have horder : i.order = j.order :=
    Option.map_injective (fun ⟨_⟩ ⟨_⟩ h => congrArg OrderPreference.mk h) (hget .order)
  have horigin : i.origin = j.origin :=
    Option.map_injective (fun ⟨_⟩ ⟨_⟩ h => congrArg AnswerOrigin.mk h) (hget .origin)
  cases i
  cases j
  rw [Interest.mk.injEq]
  exact ⟨hname, hget .prefixCount, hget .additional, hget .publisher, hget .exclude, horder,
    horigin, hget .scope, hget .count, hget .nonce, hget .responseFilter⟩

def fill (ps : List Place) (v : Fields) (i : Interest) : Interest :=
  ps.foldl (fun i p => i.set p (v p)) i

theorem name_fill (ps : List Place) (v : Fields) (i : Interest) :
    (fill ps v i).name = i.name := by
  induction ps generalizing i with
  | nil => rfl
  | cons p ps ih => exact (ih _).trans (i.name_set p (v p))

theorem get_fill (ps : List Place) (v : Fields) (i : Interest) (q : Place) :
    (fill ps v i).get q = if q ∈ ps then v q else i.get q := by
  induction ps generalizing i with
  | nil => rfl
  | cons p ps ih =>
    refine (ih _).trans ?_
    by_cases hmem : q ∈ ps
    · rw [if_pos hmem, if_pos (List.mem_cons_of_mem p hmem)]
    · rw [if_neg hmem]
      by_cases hp : p = q
      · subst hp
        rw [get_set_self, if_pos List.mem_cons_self]
      · rw [get_set_of_ne _ _ hp, if_neg]
        rintro (_ | ⟨_, h⟩)
        · exact hp rfl
        · exact hmem h

theorem fill_all (i : Interest) : fill Place.all i.get { name := i.name } = i :=
  ext_get (name_fill _ _ _) fun p => by rw [get_fill, if_pos p.mem_all]

end Interest

namespace Wire

def written (ps : List Place) (v : Fields) : Bytes := ps.flatMap fun p => optional p.write (v p)

theorem interestFields_eq (i : Interest) :
    interestFields i = name i.name ++ written Place.all i.get := by
  have horder : optional (fun o : OrderPreference => integer Tag.order o.bits.toNat) i.order =
      optional Place.order.write (i.get .order) := optional_map Place.order.write _ _
  have horigin : optional (fun o : AnswerOrigin => integer Tag.origin o.bits.toNat) i.origin =
      optional Place.origin.write (i.get .origin) := optional_map Place.origin.write _ _
  simp only [interestFields, horder, horigin, List.append_assoc]
  simp only [written, Place.all, List.flatMap_cons, List.flatMap_nil, List.append_nil]
  rfl

theorem written_cons (p : Place) (ps : List Place) (v : Fields) :
    written (p :: ps) v = optional p.write (v p) ++ written ps v := List.flatMap_cons

theorem Place.starts (p : Place) (a : p.Value) :
    ∃ u tail, p.write a = u :: tail ∧ p.expects u = true := by
  obtain ⟨u, tail, hwrite, hbounds⟩ := p.field.starts a
  exact ⟨u, tail, hwrite, (p.field.expected_iff u).2 hbounds⟩

theorem expects_of_head {ps : List Place} {v : Fields} {t : Bytes} {u : UInt8}
    (h : u ∈ (written ps v ++ t).head?) :
    (∃ q ∈ ps, q.expects u = true) ∨ (∀ q ∈ ps, v q = none) ∧ u ∈ t.head? := by
  induction ps with
  | nil => exact .inr ⟨nofun, h⟩
  | cons p ps ih =>
    rw [written_cons] at h
    cases hp : v p with
    | none =>
      rw [hp] at h
      rcases ih h with ⟨q, hq, hexpects⟩ | ⟨hnone, hu⟩
      · exact .inl ⟨q, List.mem_cons_of_mem p hq, hexpects⟩
      · exact .inr ⟨List.forall_mem_cons.2 ⟨hp, hnone⟩, hu⟩
    | some a =>
      obtain ⟨u', tail, hwrite, hexpects⟩ := p.starts a
      rw [hp, optional, hwrite] at h
      obtain rfl : u' = u := Option.some.inj h
      exact .inl ⟨p, List.mem_cons_self, hexpects⟩

namespace Reader

def fields : List Place → Interest → Reader Interest
  | [], i => do
    finish
    return i
  | p :: ps, i => do
    let x ← ifAhead p.expects p.read
    fields ps (i.set p x)

def afterName : Option Name → Reader Interest
  | none => fail .missingName
  | some n => fields Place.all { name := n }

theorem interest_eq : interest = (do
    tag "Interest" Tag.interest
    let named ← ifAhead (· == Tag.name) name
    afterName named) := rfl

theorem bind_ok {α β : Type} {r : Reader α} {f : α → Reader β} {s rest : Bytes} {a : α}
    (h : r s = (.ok a, rest)) : (r >>= f) s = f a rest := by
  show Reader.bind r f s = f a rest
  rw [Reader.bind, h]

theorem ifAhead_unexpected {α : Type} {expected : UInt8 → Bool} {s : Bytes}
    (h : ∀ u ∈ s.head?, expected u = false) (r : Reader α) :
    ifAhead expected r s = (.ok none, s) := by
  cases s with
  | nil => rfl
  | cons u tail =>
    show (if expected u = true then some <$> r else Pure.pure none : Reader (Option α)) _ = _
    rw [h u rfl]
    rfl

theorem ifAhead_expected {α : Type} {expected : UInt8 → Bool} {u : UInt8}
    (h : expected u = true) (r : Reader α) (tail : Bytes) :
    ifAhead expected r (u :: tail) = (some <$> r) (u :: tail) := by
  show (if expected u = true then some <$> r else Pure.pure none : Reader (Option α)) _ = _
  rw [h]
  rfl

theorem Field.reads_ahead {α : Type} {expected : UInt8 → Bool} {r : Reader α} {write : α → Bytes}
    {Fits : α → Prop} {low high : UInt8} {a : α} (h : Field expected r write Fits low high)
    (ha : Fits a) (rest : Bytes) : Reads (ifAhead expected r) (write a) (some a) rest := by
  obtain ⟨u, tail, hwrite, hbounds⟩ := h.starts a
  have hread : Reads (some <$> r) (write a) (some a) rest :=
    (h.reads a ha rest).bind_nil (reads_pure (some a) rest)
  rw [Reads, hwrite] at *
  rwa [List.cons_append, ifAhead_expected ((h.expected_iff u).2 hbounds)]

theorem reads_place {p : Place} {x : Option p.Value} {rest : Bytes} (hx : ∀ a ∈ x, p.Fits a)
    (habsent : x = none → ∀ u ∈ rest.head?, p.expects u = false) :
    Reads (ifAhead p.expects p.read) (optional p.write x) x rest := by
  cases x with
  | none => exact ifAhead_unexpected (habsent rfl) p.read
  | some a => exact p.field.reads_ahead (hx a rfl) rest

theorem finish_fst (s : Bytes) : (finish s).1 = .ok () := by
  fun_induction finish s with
  | case1 => rfl
  | case2 => rfl
  | case3 _ _ _ _ _ _ _ ih => exact ih
  | case4 => rfl

theorem fields_nil (i : Interest) (s : Bytes) : fields [] i s = (.ok i, (finish s).2) := by
  have h : finish s = (.ok (), (finish s).2) := Prod.ext (finish_fst s) rfl
  exact bind_ok h

def Stops (ps : List Place) (v : Fields) (t : Bytes) : Prop :=
  ∀ u ∈ t.head?, ∀ p ∈ ps, p.expects u = true → ∃ q ∈ ps, v q ≠ none ∧ p.position ≤ q.position

theorem fields_written {ps : List Place} (hps : ps.Pairwise (·.position < ·.position))
    {v : Fields} (hv : ∀ p ∈ ps, ∀ a ∈ v p, p.Fits a) {t : Bytes} (ht : Stops ps v t)
    (i : Interest) :
    fields ps i (written ps v ++ t) = (.ok (Interest.fill ps v i), (finish t).2) := by
  induction ps generalizing i with
  | nil => exact fields_nil i t
  | cons p ps ih =>
    obtain ⟨hp, hps⟩ := List.pairwise_cons.1 hps
    obtain ⟨hvp, hvps⟩ := List.forall_mem_cons.1 hv
    have habsent : v p = none → ∀ u ∈ (written ps v ++ t).head?, p.expects u = false := by
      intro hnone u hu
      refine Bool.eq_false_iff.2 fun hexpects => ?_
      rcases expects_of_head hu with ⟨q, hq, hother⟩ | ⟨hrest, hu⟩
      · obtain rfl := Place.eq_of_expects hexpects hother
        exact Nat.lt_irrefl _ (hp p hq)
      · obtain ⟨q, hq, hsome, -⟩ := ht u hu p List.mem_cons_self hexpects
        exact hsome ((List.forall_mem_cons (p := fun q => v q = none)).2 ⟨hnone, hrest⟩ q hq)
    have hstops : Stops ps v t := by
      intro u hu p' hp' hexpects
      obtain ⟨q, hq, hsome, hle⟩ := ht u hu p' (List.mem_cons_of_mem p hp') hexpects
      rcases List.mem_cons.1 hq with rfl | hq
      · exact absurd hle (Nat.not_le.2 (hp p' hp'))
      · exact ⟨q, hq, hsome, hle⟩
    rw [written_cons, List.append_assoc]
    exact (reads_place hvp habsent).bind_eq.trans (ih hps hvps hstops (i.set p (v p)))

theorem interest_opened (s : Bytes) :
    interest (Tag.interest :: s) = (ifAhead (· == Tag.name) name >>= afterName) s := by
  rw [interest_eq]
  exact (reads_tag "Interest" Tag.interest s).bind_eq

theorem interest_named {n : Name} (hn : ∀ c ∈ n.components, Sized c) (s : Bytes) :
    interest (Tag.interest :: (Wire.name n ++ s)) = fields Place.all { name := n } s := by
  rw [interest_opened]
  exact (field_name.reads_ahead hn s).bind_eq

end Reader

theorem SizedInterest.fits {i : Interest} (hi : SizedInterest i) (p : Place) :
    ∀ a ∈ i.get p, p.Fits a := by
  cases p with
  | exclude => exact hi.exclude
  | nonce => exact hi.nonce
  | responseFilter => exact hi.responseFilter
  | _ => exact fun _ _ => trivial

theorem interest_written {i : Interest} (hname : ∀ c ∈ i.name.components, Sized c)
    (hfits : ∀ p, ∀ a ∈ i.get p, p.Fits a) {t : Bytes} (ht : Reader.Stops Place.all i.get t) :
    Reader.interest (Tag.interest :: interestFields i ++ t) = (.ok i, (Reader.finish t).2) := by
  rw [interestFields_eq, List.cons_append, List.append_assoc, Reader.interest_named hname,
    Reader.fields_written Place.pairwise_all (fun p _ => hfits p) ht, Interest.fill_all]

theorem interest_eq_ok {i : Interest} (hi : i.validate = .ok ()) :
    interest i = .ok (Tag.interest :: interestFields i ++ [Tag.close]) := by
  have hfault : i.fault? = none := by
    cases h : i.fault? with
    | none => rfl
    | some fault =>
      rw [Interest.validate, h] at hi
      cases hi
  rw [interest, hfault, composite]

end Wire

/-- It is the tag of a field that comes later in wire order than every field that is there. -/
def Interest.Continues (i : Interest) (u : UInt8) : Prop :=
  ∃ p : Wire.Place, p.expects u = true ∧ ∀ q, i.get q ≠ none → q.position < p.position

namespace Wire

/-- Without its closing byte an Interest is read before anything that does not go on with its
fields. What follows may stop to be regular anywhere: it is dropped, or it is left over, and none
of it gets into a field. -/
theorem endings_tolerated {i : Interest} (hsized : SizedInterest i) (hvalid : i.validate = .ok ())
    {t : Bytes} (ht : ∀ u ∈ t.head?, ¬ i.Continues u) :
    ∃ s, interest i = .ok (s ++ [Tag.close]) ∧ (Reader.interest (s ++ t)).1 = .ok i ∧
      (Reader.whole Reader.interest (s ++ t) = .ok i ∨
        ∃ n, 0 < n ∧ Reader.whole Reader.interest (s ++ t) = .error (.trailing n)) := by
  have hstops : Reader.Stops Place.all i.get t := by
    intro u hu p _ hexpects
    by_contra hlast
    refine ht u hu ⟨p, hexpects, fun q hq => Nat.lt_of_not_le fun hle => ?_⟩
    exact hlast ⟨q, q.mem_all, hq, hle⟩
  have hread := interest_written hsized.name hsized.fits hstops
  refine ⟨Tag.interest :: interestFields i, interest_eq_ok hvalid, congrArg Prod.fst hread, ?_⟩
  rw [Reader.whole, hread]
  cases hleft : (Reader.finish t).2 with
  | nil => exact .inl rfl
  | cons u left => exact .inr ⟨_, Nat.succ_pos left.length, rfl⟩

theorem endings_tolerated_late_field :
    let i : Interest := { name := ⟨[[0x61]]⟩, count := some 3 }
    let t : Bytes := [Tag.prefixCount, 9, 0xaa]
    SizedInterest i ∧ i.validate = .ok () ∧ (∀ u ∈ t.head?, ¬ i.Continues u) ∧
      ∃ s, interest i = .ok (s ++ [Tag.close]) ∧ (Reader.interest (s ++ t)).1 = .ok i ∧
        (Reader.whole Reader.interest (s ++ t) = .ok i ∨
          ∃ n, 0 < n ∧ Reader.whole Reader.interest (s ++ t) = .error (.trailing n)) := by
  intro i t
  have hsized : SizedInterest i := by
    constructor <;> simp [i, Sized]
  have hvalid : i.validate = .ok () := by decide
  have ht : ∀ u ∈ t.head?, ¬ i.Continues u := by
    rintro _ ⟨⟩ ⟨p, hexpects, hlast⟩
    obtain rfl := Place.eq_of_expects (q := .prefixCount) hexpects rfl
    exact absurd (hlast .count (Option.some_ne_none _)) (by decide)
  exact ⟨hsized, hvalid, ht, endings_tolerated hsized hvalid ht⟩

end Wire

end NamedContent
