import NamedContent.Proofs.PartitionFilter
import NamedContent.Proofs.WireFraming

/-!
Names, exclude filters, publishers and Interests are read back from their wire forms, whatever
follows. The fields of an Interest are told apart by the tag ahead alone: the tags of the fields
increase, so what follows an absent field is never taken for it.
-/

namespace NamedContent

namespace Wire

def Sized (s : Bytes) : Prop := s.length < 2 ^ 64

namespace Reader

variable {α β : Type} {r : Reader α} {a : α} {b : β} {t rest : Bytes}

theorem reads_name {n : Name} (hn : ∀ c ∈ n.components, Sized c) (rest : Bytes) :
    Reads name (Wire.name n) n rest := by
  refine Reads.bind (s := [Tag.name]) (reads_tag "Name" Tag.name _) ?_
  refine Reads.bind (reads_many ?_ ?_) ?_
  · intro c hc
    exact ⟨_, _, _, rfl, rfl, reads_leaf _ _ (hn c hc)⟩
  · rintro t ⟨⟩
    rfl
  · exact (reads_tag "Name close" Tag.close rest).bind_nil (reads_pure n rest)

theorem reads_excludeElement {e : ExcludeElement} (he : ∀ c, e = .component c → Sized c) :
    ∃ t tail r, excludeElement e = t :: tail ∧ nextExcludeElement t = some r ∧
      ∀ rest, Reads r (excludeElement e) e rest := by
  cases e with
  | component c =>
    refine ⟨_, _, _, rfl, rfl, fun rest => ?_⟩
    exact (reads_leaf _ _ (he c rfl) rest).bind_nil (reads_pure _ rest)
  | any =>
    refine ⟨_, _, _, rfl, rfl, fun rest => ?_⟩
    exact (reads_leaf _ _ (by decide) rest).bind_nil (reads_pure _ rest)

theorem exclude_elements {es : List ExcludeElement}
    (hes : ∀ c ∈ ExcludeFilter.componentsOf es, Sized c) (rest : Bytes) :
    exclude (composite Tag.exclude (es.flatMap excludeElement) ++ rest) =
      (match ExcludeFilter.ofElements es with
        | .ok f => .ok f
        | .error fault => .error (.exclude fault), rest) := by
  have hmany : Reads (many nextExcludeElement shortens_nextExcludeElement)
      (es.flatMap excludeElement) es ([Tag.close] ++ rest) := by
    refine reads_many (fun e he => reads_excludeElement ?_) ?_
    · rintro c rfl
      exact hes c (ExcludeFilter.mem_componentsOf.2 he)
    · rintro t ⟨⟩
      rfl
  have hwritten : composite Tag.exclude (es.flatMap excludeElement) ++ rest =
      [Tag.exclude] ++ (es.flatMap excludeElement ++ ([Tag.close] ++ rest)) := by
    simp [composite]
  rw [hwritten, exclude, (reads_tag "Exclude" Tag.exclude _).bind_eq, hmany.bind_eq, close,
    (reads_tag "Exclude close" Tag.close rest).bind_eq]
  cases ExcludeFilter.ofElements es <;> rfl

theorem reads_exclude {f : ExcludeFilter} (hf : ∀ c ∈ f.components, Sized c) (rest : Bytes) :
    Reads exclude (Wire.exclude f) f rest := by
  rw [← ExcludeFilter.componentsOf_elements] at hf
  rw [Reads, Wire.exclude, exclude_elements hf, ExcludeFilter.ofElements_elements]

theorem reads_publisher (p : PublisherId) (rest : Bytes) :
    Reads publisher (Wire.publisher p) p rest := by
  have hsize : Sized p.id.bytes := by
    rw [Sized, p.id.length_bytes]
    decide
  refine Reads.bind (s := [publisherTag p.kind]) (reads_byte "PublisherID" _ _) ?_
  rw [publisherKind?_publisherTag]
  refine (reads_payload "PublisherID" hsize rest).bind_nil ?_
  rw [Digest.ofBytes?_bytes]
  exact reads_pure p rest

def After (k : UInt8) (s : Bytes) : Prop := ∀ t ∈ s.head?, t = Tag.close ∨ k < t

/-- A field is written with a first tag from `low` to `high`, and its reader looks for just
these. -/
structure Field (expected : UInt8 → Bool) (r : Reader α) (write : α → Bytes) (Fits : α → Prop)
    (low high : UInt8) : Prop where
  opens : Tag.close < low
  ordered : low ≤ high
  expected_iff : ∀ t, expected t = true ↔ low ≤ t ∧ t ≤ high
  starts : ∀ a, ∃ t tail, write a = t :: tail ∧ low ≤ t ∧ t ≤ high
  reads : ∀ a, Fits a → ∀ rest, Reads r (write a) a rest

namespace Field

variable {expected : UInt8 → Bool} {write : α → Bytes} {Fits : α → Prop} {low high k : UInt8}
  {x : Option α}

theorem ofTag {u : UInt8} (hu : Tag.close < u) (hstarts : ∀ a, ∃ tail, write a = u :: tail)
    (hreads : ∀ a, Fits a → ∀ rest, Reads r (write a) a rest) :
    Field (· == u) r write Fits u u where
  opens := hu
  ordered := UInt8.le_refl u
  expected_iff t := by
    rw [beq_iff_eq]
    exact ⟨fun h => ⟨UInt8.le_of_eq h.symm, UInt8.le_of_eq h⟩,
      fun h => UInt8.le_antisymm h.2 h.1⟩
  starts a := by
    obtain ⟨tail, hwrite⟩ := hstarts a
    exact ⟨u, tail, hwrite, UInt8.le_refl u, UInt8.le_refl u⟩
  reads := hreads

theorem reads_ifAhead (h : Field expected r write Fits low high) (hx : ∀ a ∈ x, Fits a)
    (hrest : After high rest) : Reads (ifAhead expected r) (optional write x) x rest := by
  cases x with
  | none =>
    refine Reads.bind_nil (s := []) (a := rest.head?) rfl ?_
    cases hhead : rest.head? with
    | none => exact reads_pure none rest
    | some t =>
      have hunexpected : expected t = false := by
        rw [← Bool.not_eq_true, h.expected_iff]
        rintro ⟨hlow, hhigh⟩
        rcases hrest t hhead with rfl | hlt
        · exact UInt8.not_le.2 h.opens hlow
        · exact UInt8.not_le.2 hlt hhigh
      simp only [hunexpected]
      exact reads_pure none rest
  | some a =>
    obtain ⟨t, tail, hwrite, hbounds⟩ := h.starts a
    refine Reads.bind (s := []) (a := some t) (t := write a) ?_ ?_
    · rw [hwrite]
      rfl
    · simp only [(h.expected_iff t).2 hbounds, if_true]
      exact (h.reads a (hx a rfl) rest).bind_nil (reads_pure (some a) rest)

theorem after (h : Field expected r write Fits low high) (hk : k < low) (hrest : After high rest)
    (x : Option α) : After k (optional write x ++ rest) := by
  cases x with
  | none =>
    intro t ht
    exact (hrest t ht).imp_right
      (UInt8.lt_trans (UInt8.lt_of_lt_of_le hk h.ordered))
  | some a =>
    obtain ⟨t, tail, hwrite, hlow, -⟩ := h.starts a
    rw [optional, hwrite]
    rintro u ⟨⟩
    exact .inr (UInt8.lt_of_lt_of_le hk hlow)

end Field

/-- Reads what cannot be taken for a field of a tag up to `k`. -/
structure ReadsAfter (k : UInt8) (r : Reader α) (s : Bytes) (a : α) (rest : Bytes) : Prop where
  reads : Reads r s a rest
  after : After k (s ++ rest)

theorem Field.bind {expected : UInt8 → Bool} {r : Reader α} {write : α → Bytes} {Fits : α → Prop}
    {low high k : UInt8} {x : Option α} {f : Option α → Reader β}
    (h : Field expected r write Fits low high) (hk : k < low) (hx : ∀ a ∈ x, Fits a)
    (hf : ReadsAfter high (f x) t b rest) :
    ReadsAfter k (ifAhead expected r >>= f) (optional write x ++ t) b rest where
  reads := (h.reads_ifAhead hx hf.after).bind hf.reads
  after := by
    rw [List.append_assoc]
    exact h.after hk hf.after x

theorem field_name : Field (· == Tag.name) name Wire.name
    (fun n => ∀ c ∈ n.components, Sized c) Tag.name Tag.name :=
  .ofTag (by decide) (fun _ => ⟨_, rfl⟩) fun _ hn => reads_name hn

theorem field_integer64 (t : UInt8) (element : String) (ht : Tag.close < t) :
    Field (· == t) (integer64 t element) (fun n => Wire.integer t n.toNat) (fun _ => True) t t :=
  .ofTag ht (fun _ => ⟨_, rfl⟩) fun n _ => reads_integer64 t element n

theorem field_integer32 (t : UInt8) (element : String) (ht : Tag.close < t) :
    Field (· == t) (integer32 t element) (fun n => Wire.integer t n.toNat) (fun _ => True) t t :=
  .ofTag ht (fun _ => ⟨_, rfl⟩) fun n _ => reads_integer32 t element n

theorem field_leaf (t : UInt8) (expected : String) (ht : Tag.close < t) :
    Field (· == t) (leaf t expected) (Wire.leaf t) Sized t t :=
  .ofTag ht (fun _ => ⟨_, rfl⟩) fun _ hs => reads_leaf t expected hs

theorem field_exclude : Field (· == Tag.exclude) exclude Wire.exclude
    (fun f => ∀ c ∈ f.components, Sized c) Tag.exclude Tag.exclude :=
  .ofTag (by decide) (fun _ => ⟨_, rfl⟩) fun _ hf => reads_exclude hf

theorem isSome_publisherKind?_iff (t : UInt8) : (publisherKind? t).isSome = true ↔
    Tag.publisherKey ≤ t ∧ t ≤ Tag.publisherIssuerCertificate := by
  have hkey : Tag.publisherKey.toNat = 6 := rfl
  have hcertificate : Tag.publisherCertificate.toNat = 7 := rfl
  have hissuer : Tag.publisherIssuerKey.toNat = 8 := rfl
  have hlast : Tag.publisherIssuerCertificate.toNat = 9 := rfl
  simp only [publisherKind?, UInt8.le_iff_toNat_le, ← UInt8.toNat_inj, hkey, hcertificate, hissuer,
    hlast]
  split_ifs <;> simp <;> omega

theorem field_publisher : Field (fun t => (publisherKind? t).isSome) publisher Wire.publisher
    (fun _ => True) Tag.publisherKey Tag.publisherIssuerCertificate where
  opens := by decide
  ordered := by decide
  expected_iff := isSome_publisherKind?_iff
  starts p := by
    refine ⟨_, _, rfl, ?_⟩
    cases p.kind <;> decide
  reads p _ := reads_publisher p

theorem reads_finish (rest : Bytes) : Reads finish [Tag.close] () rest := by
  show finish (Tag.close :: rest) = (.ok (), rest)
  rw [finish]
  simp

end Reader

structure SizedInterest (i : Interest) : Prop where
  name : ∀ c ∈ i.name.components, Sized c
  exclude : ∀ f ∈ i.exclude, ∀ c ∈ f.components, Sized c
  nonce : ∀ s ∈ i.nonce, Sized s
  responseFilter : ∀ s ∈ i.responseFilter, Sized s

theorem optional_map {α β : Type} (write : β → Bytes) (g : α → β) (x : Option α) :
    optional (fun a => write (g a)) x = optional write (x.map g) := by
  cases x <;> rfl

theorem reads_interest {i : Interest} (hi : SizedInterest i) (rest : Bytes) :
    Reader.Reads Reader.interest (composite Tag.interest (interestFields i)) i rest := by
  have hwritten : composite Tag.interest (interestFields i) = [Tag.interest] ++
      (optional name (some i.name) ++
        (optional (fun n => integer Tag.prefixCount n.toNat) i.prefixCount ++
        (optional (fun n => integer Tag.additional n.toNat) i.additional ++
        (optional publisher i.publisher ++
        (optional exclude i.exclude ++
        (optional (fun n => integer Tag.order n.toNat) (i.order.map (·.bits)) ++
        (optional (fun n => integer Tag.origin n.toNat) (i.origin.map (·.bits)) ++
        (optional (fun n => integer Tag.scope n.toNat) i.scope ++
        (optional (fun n => integer Tag.count n.toNat) i.count ++
        (optional (leaf Tag.nonce) i.nonce ++
        (optional (leaf Tag.responseFilter) i.responseFilter ++ [Tag.close]))))))))))) := by
    rw [← optional_map, ← optional_map]
    simp only [composite, interestFields, optional, List.append_assoc, List.cons_append,
      List.nil_append]
  rw [hwritten]
  refine Reader.Reads.bind (Reader.reads_tag "Interest" Tag.interest _) ?_
  have hnone : ∀ {α : Type} {x : Option α}, ∀ a ∈ x, True := fun _ _ => trivial
  refine (Reader.field_name.bind (k := Tag.close) (by decide)
    (fun _ h => Option.some.inj h ▸ hi.name) ?_).reads
  refine (Reader.field_integer64 _ _ (by decide)).bind (by decide) hnone ?_
  refine (Reader.field_integer64 _ _ (by decide)).bind (by decide) hnone ?_
  refine Reader.field_publisher.bind (by decide) hnone ?_
  refine Reader.field_exclude.bind (by decide) hi.exclude ?_
  refine (Reader.field_integer32 _ _ (by decide)).bind (by decide) hnone ?_
  refine (Reader.field_integer32 _ _ (by decide)).bind (by decide) hnone ?_
  refine (Reader.field_integer32 _ _ (by decide)).bind (by decide) hnone ?_
  refine (Reader.field_integer32 _ _ (by decide)).bind (by decide) hnone ?_
  refine (Reader.field_leaf _ _ (by decide)).bind (by decide) hi.nonce ?_
  refine (Reader.field_leaf _ _ (by decide)).bind (by decide) hi.responseFilter ?_
  refine ⟨(Reader.reads_finish rest).bind_nil ?_, ?_⟩
  · have horder : (i.order.map (·.bits)).map OrderPreference.mk = i.order := by
      cases i.order <;> rfl
    have horigin : (i.origin.map (·.bits)).map AnswerOrigin.mk = i.origin := by
      cases i.origin <;> rfl
    rw [horder, horigin]
    exact Reader.reads_pure i rest
  · rintro t ⟨⟩
    exact .inl rfl

/-- What `encode` writes `read` takes back from in front of anything: so it is read back where it
is the whole input, no two values are written alike, and none is written as a beginning of
another. -/
structure RoundTrips {α : Type} (encode : α → Except WireFault Bytes) (read : Reader α)
    (Fits : α → Prop) : Prop where
  writes : ∀ a, Fits a → ∃ s, encode a = .ok s
  reads : ∀ a, Fits a → ∀ s, encode a = .ok s → ∀ rest, read (s ++ rest) = (.ok a, rest)
  whole : ∀ a, Fits a → ∀ s, encode a = .ok s → Reader.whole read s = .ok a
  injective : ∀ a b, Fits a → Fits b → ∀ s, encode a = .ok s → encode b = .ok s → a = b
  prefixFree : ∀ a b, Fits a → Fits b → ∀ s t, encode a = .ok s → encode b = .ok t → s <+: t →
    a = b ∧ s = t

theorem RoundTrips.of_reads {α : Type} {encode : α → Except WireFault Bytes} {read : Reader α}
    {Fits : α → Prop} (h : ∀ a, Fits a → ∃ s, encode a = .ok s ∧ ∀ rest, read.Reads s a rest) :
    RoundTrips encode read Fits := by
  have hreads : ∀ a, Fits a → ∀ s, encode a = .ok s → ∀ rest, read (s ++ rest) = (.ok a, rest) := by
    intro a ha s hs rest
    obtain ⟨t, ht, hread⟩ := h a ha
    obtain rfl := Except.ok.inj (hs.symm.trans ht)
    exact hread rest
  have hfree : ∀ a b, Fits a → Fits b → ∀ s t, encode a = .ok s → encode b = .ok t → s <+: t →
      a = b ∧ s = t := by
    rintro a b ha hb s _ hs ht ⟨rest, rfl⟩
    have hread := hreads a ha s hs rest
    have hwhole := hreads b hb _ ht []
    rw [List.append_nil, hread] at hwhole
    obtain ⟨hok, rfl⟩ := Prod.mk.inj hwhole
    exact ⟨Except.ok.inj hok, (List.append_nil s).symm⟩
  refine ⟨fun a ha => ?_, hreads, ?_, ?_, hfree⟩
  · obtain ⟨s, hs, -⟩ := h a ha
    exact ⟨s, hs⟩
  · intro a ha s hs
    have := hreads a ha s hs []
    rw [List.append_nil] at this
    rw [Reader.whole, this]
  · intro a b ha hb s hs ht
    exact (hfree a b ha hb s s hs ht (List.prefix_refl s)).1

/-- Names, exclude filters and publishers have wire forms, and so have the Interests that pass
validation; each is read back from in front of anything. -/
theorem round_trips :
    RoundTrips (fun n => .ok (name n)) Reader.name (fun n => ∀ c ∈ n.components, Sized c) ∧
      RoundTrips (fun f => .ok (exclude f)) Reader.exclude
        (fun f => ∀ c ∈ f.components, Sized c) ∧
      RoundTrips (fun p => .ok (publisher p)) Reader.publisher (fun _ => True) ∧
      RoundTrips interest Reader.interest (fun i => SizedInterest i ∧ i.validate = .ok ()) := by
  refine ⟨.of_reads fun n hn => ⟨_, rfl, Reader.reads_name hn⟩,
    .of_reads fun f hf => ⟨_, rfl, Reader.reads_exclude hf⟩,
    .of_reads fun p _ => ⟨_, rfl, Reader.reads_publisher p⟩, .of_reads fun i hi => ?_⟩
  have hfault : i.fault? = none := by
    cases h : i.fault? with
    | none => rfl
    | some fault =>
      have := hi.2
      rw [Interest.validate, h] at this
      cases this
  refine ⟨composite Tag.interest (interestFields i), ?_, reads_interest hi.1⟩
  rw [interest, hfault]

def sampleInterest : Interest :=
  { name := ⟨[[0x61], []]⟩, prefixCount := some 2, additional := some 0
    publisher := some ⟨.issuerKey, ⟨List.replicate 32 5, rfl⟩⟩
    exclude := some ⟨[[], [0x62]], [false, true, true], by decide, by decide⟩
    order := some .right, origin := some .markStale, scope := some 0, count := some 4294967295
    nonce := some [], responseFilter := some [0x00, 0x11] }

theorem round_trips_sample : SizedInterest sampleInterest ∧ sampleInterest.validate = .ok () ∧
    ∃ s, interest sampleInterest = .ok s ∧
      ∀ rest, Reader.interest (s ++ rest) = (.ok sampleInterest, rest) := by
  have hsized : SizedInterest sampleInterest := by
    constructor <;> simp [sampleInterest, Sized]
  have hvalid : sampleInterest.validate = .ok () := by decide
  obtain ⟨s, hs⟩ := round_trips.2.2.2.writes sampleInterest ⟨hsized, hvalid⟩
  exact ⟨hsized, hvalid, s, hs, round_trips.2.2.2.reads sampleInterest ⟨hsized, hvalid⟩ s hs⟩

end Wire

end NamedContent
