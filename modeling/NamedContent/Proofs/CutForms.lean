import Mathlib.Data.List.Nodup
import NamedContent.Proofs.SettledReaders

/-!
Interests whose wire forms are cut short. Inside a field there is not enough to read; but an
Interest needs no closing byte, so it is still read where it is cut between two fields, and then it
has the fields before the cut and no others.
-/

namespace NamedContent

namespace Wire

namespace Reader

variable {α : Type} {r : Reader α} {s : Bytes}

theorem fields_cut {ps : List Place} (hps : ps.Nodup) {v : Fields}
    (hv : ∀ p ∈ ps, ∀ a ∈ v p, p.Fits a) {q : Bytes} (hq : q <+: written ps v ++ [Tag.close])
    (hne : q ≠ written ps v ++ [Tag.close]) (i : Interest) :
    Truncated (fields ps i q) ∨ ∃ as, as <+: ps ∧ q = written as v := by
  induction ps generalizing q i with
  | nil =>
    rcases List.prefix_cons_iff.1 hq with rfl | ⟨t, rfl, ht⟩
    · exact .inr ⟨[], List.prefix_refl [], rfl⟩
    · rw [List.prefix_nil.1 ht] at hne
      exact absurd rfl hne
  | cons p ps ih =>
    obtain ⟨hp, hps⟩ := List.nodup_cons.1 hps
    obtain ⟨hvp, hvps⟩ := List.forall_mem_cons.1 hv
    rw [written_cons, List.append_assoc] at hq hne
    -- The cut is after what is at `p`, which is then read, present or not.
    have hlater : ∀ rest, q = optional p.write (v p) ++ rest →
        Reads (ifAhead p.expects p.read) (optional p.write (v p)) (v p) rest →
        Truncated (fields (p :: ps) i q) ∨ ∃ as, as <+: p :: ps ∧ q = written as v := by
      rintro rest rfl hread
      have hgoes : fields (p :: ps) i (optional p.write (v p) ++ rest) =
          fields ps (i.set p (v p)) rest := hread.bind_eq
      have hrest := (List.prefix_append_right_inj _).1 hq
      have hstrict : rest ≠ written ps v ++ [Tag.close] := fun h => hne (by rw [h])
      rw [hgoes]
      refine (ih hps hvps hrest hstrict (i.set p (v p))).imp_right ?_
      rintro ⟨as, has, rfl⟩
      exact ⟨p :: as, List.cons_prefix_cons.2 ⟨rfl, has⟩, (written_cons p as v).symm⟩
    cases hx : v p with
    | none =>
      refine hlater q (by rw [hx]; rfl) (reads_place hvp fun _ u hu => ?_)
      rw [hx] at hq
      have hhead : u ∈ (written ps v ++ [Tag.close]).head? := by
        obtain ⟨t, ht⟩ := hq
        cases q with
        | nil => cases hu
        | cons b q => exact (congrArg List.head? ht).symm.trans hu
      refine Bool.eq_false_iff.2 fun hexpects => ?_
      rcases expects_of_head hhead with ⟨p', hp', hother⟩ | ⟨-, hclose⟩
      · obtain rfl := Place.eq_of_expects hexpects hother
        exact hp hp'
      · obtain rfl := Option.some.inj hclose
        exact absurd hexpects (Bool.eq_false_iff.1 p.not_expects_close)
    | some a =>
      rcases prefix_append_cases hq with ⟨hinside, hcut⟩ | ⟨rest, -, rfl⟩
      · rw [hx] at hinside hcut
        by_cases hnil : q = []
        · exact .inr ⟨[], List.nil_prefix, hnil⟩
        · have hfield := p.field.truncated (settles_read p) (hvp a hx) hinside hcut hnil
          exact .inl (bind_truncated hfield _)
      · exact hlater rest rfl (reads_place hvp fun h => by rw [hx] at h; cases h)

theorem whole_truncated (h : Truncated (r s)) :
    ∃ part, whole r s = .error (.truncated part) := by
  obtain ⟨part, hpart⟩ := h
  refine ⟨part, ?_⟩
  rw [whole, show r s = (.error (.truncated part), (r s).2) from Prod.ext hpart rfl]

end Reader

end Wire

/-- `j` has what `i` has at the first `n` places of the wire order and nothing at the others. -/
structure Interest.UpTo (i : Interest) (n : Nat) (j : Interest) : Prop where
  name : j.name = i.name
  kept : ∀ p : Wire.Place, p.position < n → j.get p = i.get p
  cleared : ∀ p : Wire.Place, n ≤ p.position → j.get p = none

namespace Wire

theorem written_eq_nil {ps : List Place} {v : Fields} (h : ∀ p ∈ ps, v p = none) :
    written ps v = [] :=
  List.flatMap_eq_nil_iff.2 fun p hp => by rw [h p hp]; rfl

theorem written_congr {ps : List Place} {v v' : Fields} (h : ∀ p ∈ ps, v p = v' p) :
    written ps v = written ps v' :=
  List.flatMap_congr fun p hp => by rw [h p hp]

theorem exists_upTo (i : Interest) {as : List Place} (has : as <+: Place.all) :
    ∃ j, i.UpTo as.length j ∧ interestFields j = name i.name ++ written as i.get := by
  have hmem : ∀ p, p ∈ Place.all.take as.length ↔ p.position < as.length := fun p =>
    List.mem_take_iff_idxOf_lt p.mem_all
  rw [← List.prefix_iff_eq_take.1 has] at hmem
  let j := Interest.fill as i.get { name := i.name }
  have hkept : ∀ p ∈ as, j.get p = i.get p := fun p hp => by
    rw [Interest.get_fill, if_pos hp]
  have hcleared : ∀ p, p ∉ as → j.get p = none := fun p hp => by
    rw [Interest.get_fill, if_neg hp]
    cases p <;> rfl
  refine ⟨j, ⟨Interest.name_fill _ _ _, fun p hp => hkept p ((hmem p).2 hp), fun p hp => ?_⟩, ?_⟩
  · exact hcleared p fun h => Nat.not_lt.2 hp ((hmem p).1 h)
  · obtain ⟨bs, hbs⟩ := has
    have hdisjoint : ∀ p ∈ bs, p ∉ as := fun p hp hp' =>
      List.disjoint_of_nodup_append (hbs ▸ Place.nodup_all) hp' hp
    rw [interestFields_eq, Interest.name_fill, ← hbs, written, List.flatMap_append]
    rw [← written, ← written, written_congr hkept, written_eq_nil fun p hp =>
      hcleared p (hdisjoint p hp), List.append_nil]

theorem upTo_read {i j : Interest} (hi : SizedInterest i) {n : Nat} (hj : i.UpTo n j) :
    Reader.whole Reader.interest (Tag.interest :: interestFields j) = .ok j := by
  have hfits : ∀ p, ∀ a ∈ j.get p, p.Fits a := fun p a ha => by
    rcases Nat.lt_or_ge p.position n with hlt | hge
    · rw [hj.kept p hlt] at ha
      exact hi.fits p a ha
    · rw [hj.cleared p hge] at ha
      cases ha
  have hread := interest_written (hj.name ▸ hi.name) hfits (t := []) (by rintro _ ⟨⟩)
  rw [List.append_nil] at hread
  rw [Reader.whole, hread, Reader.finish]

inductive CutReading (i : Interest) : Bytes → Except WireFault Interest → Prop
  | truncated {q : Bytes} (part : String)
      (hinside : ∀ n j, i.UpTo n j → q ≠ Tag.interest :: interestFields j) :
      CutReading i q (.error (.truncated part))
  | nameless : CutReading i [Tag.interest] (.error .missingName)
  | between {n : Nat} {j : Interest} (h : i.UpTo n j) :
      CutReading i (Tag.interest :: interestFields j) (.ok j)

theorem CutReading.of_ok {i j : Interest} {q : Bytes} (h : CutReading i q (.ok j)) :
    j.name = i.name ∧ ∀ p a, j.get p = some a → i.get p = some a := by
  cases h with
  | between h =>
    rename_i n
    refine ⟨h.name, fun p a ha => ?_⟩
    rcases Nat.lt_or_ge p.position n with hlt | hge
    · exact (h.kept p hlt).symm.trans ha
    · rw [h.cleared p hge] at ha
      cases ha

theorem interest_cut {i : Interest} (hi : SizedInterest i) {q : Bytes}
    (hq : q <+: Tag.interest :: interestFields i ++ [Tag.close])
    (hne : q ≠ Tag.interest :: interestFields i ++ [Tag.close]) :
    Reader.Truncated (Reader.interest q) ∨ q = [Tag.interest] ∨
      ∃ as, as <+: Place.all ∧ q = Tag.interest :: (name i.name ++ written as i.get) := by
  rw [interestFields_eq, List.cons_append, List.append_assoc] at hq hne
  rcases List.prefix_cons_iff.1 hq with rfl | ⟨t, rfl, ht⟩
  · exact .inl ⟨_, rfl⟩
  by_cases hnil : t = []
  · exact .inr (.inl (congrArg _ hnil))
  rcases prefix_append_cases ht with ⟨hinside, hcut⟩ | ⟨rest, hrest, rfl⟩
  · rw [Reader.interest_opened]
    have hname := Reader.field_name.truncated Reader.settles_name hi.name hinside hcut hnil
    exact .inl (Reader.bind_truncated hname _)
  · rw [Reader.interest_named hi.name]
    have hstrict : rest ≠ written Place.all i.get ++ [Tag.close] := fun h => hne (by rw [h])
    refine (Reader.fields_cut Place.nodup_all (fun p _ => hi.fits p) hrest hstrict _).imp_right ?_
    rintro ⟨as, has, rfl⟩
    exact .inr ⟨as, has, rfl⟩

/-- A form that is cut short is read only if it was cut between two fields. What is read then is
the Interest with the fields before the cut and nothing in the place of the others. -/
theorem cut_forms_read {i : Interest} (hsized : SizedInterest i) (hvalid : i.validate = .ok ()) :
    ∃ s, interest i = .ok s ∧ ∀ q, q <+: s → q ≠ s →
      CutReading i q (Reader.whole Reader.interest q) ∧
        ∀ j, Reader.whole Reader.interest q = .ok j →
          j.name = i.name ∧ ∀ p a, j.get p = some a → i.get p = some a := by
  refine ⟨_, interest_eq_ok hvalid, fun q hq hne => ?_⟩
  have hreading : CutReading i q (Reader.whole Reader.interest q) := by
    by_cases hbetween : ∃ n j, i.UpTo n j ∧ q = Tag.interest :: interestFields j
    · obtain ⟨n, j, hj, rfl⟩ := hbetween
      rw [upTo_read hsized hj]
      exact .between hj
    · rcases interest_cut hsized hq hne with hcut | rfl | ⟨as, has, rfl⟩
      · obtain ⟨part, hpart⟩ := Reader.whole_truncated hcut
        rw [hpart]
        exact .truncated part fun n j hj h => hbetween ⟨n, j, hj, h⟩
      · exact .nameless
      · obtain ⟨j, hj, hfields⟩ := exists_upTo i has
        exact absurd ⟨_, j, hj, by rw [hfields]⟩ hbetween
  exact ⟨hreading, fun j hj => (hj ▸ hreading : CutReading i q (.ok j)).of_ok⟩

theorem cut_forms_read_sample :
    SizedInterest sampleInterest ∧ sampleInterest.validate = .ok () ∧
      ∃ s, interest sampleInterest = .ok s ∧ ∀ q, q <+: s → q ≠ s →
        CutReading sampleInterest q (Reader.whole Reader.interest q) ∧
          ∀ j, Reader.whole Reader.interest q = .ok j →
            j.name = sampleInterest.name ∧
              ∀ p a, j.get p = some a → sampleInterest.get p = some a := by
  have hsized : SizedInterest sampleInterest := by
    constructor <;> simp [sampleInterest, Sized]
  have hvalid : sampleInterest.validate = .ok () := by decide
  exact ⟨hsized, hvalid, cut_forms_read hsized hvalid⟩

end Wire

end NamedContent
