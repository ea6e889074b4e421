import NamedContent.Form.Interest
import NamedContent.Proofs.ExcludeReading
import NamedContent.Proofs.WireRoundTrip

/-!
The three ways to a filter from a list of elements: built directly, read from the kept form of
the list, and read from its wire form. The forms give the list back as it is, so all three accept
the same lists and agree on the filter.
-/

namespace NamedContent

namespace Form

theorem ofForm?_byte (b : UInt8) : ofForm? (toForm b) = some b := by
  have hb : 0 ≤ (b.toNat : Int) ∧ (b.toNat : Int) < UInt8.size := by
    have := b.toNat_lt_size
    omega
  show UInt8.ofNat <$> natBelow? UInt8.size (.integer b.toNat) = some b
  rw [natBelow?, if_pos hb]
  simp

theorem ofForm?_list {α : Type} [Form α] {as : List α}
    (h : ∀ a ∈ as, ofForm? (toForm a) = some a) : ofForm? (toForm as) = some as := by
  show (as.map toForm).mapM ofForm? = some as
  induction as with
  | nil => rfl
  | cons a as ih =>
    rw [List.map_cons, List.mapM_cons, h a List.mem_cons_self,
      ih fun b hb => h b (List.mem_cons_of_mem a hb)]
    rfl

theorem ofForm?_excludeElement (e : ExcludeElement) : ofForm? (toForm e) = some e := by
  cases e with
  | component c =>
    show ExcludeElement.component <$> ofForm? (toForm c) = _
    rw [ofForm?_list fun b _ => ofForm?_byte b]
    rfl
  | any => rfl

theorem ofForm?_elements (es : List ExcludeElement) :
    ofForm? (toForm es) = (ExcludeFilter.ofElements es).toOption := by
  show (ofForm? (toForm es) >>= fun es => (ExcludeFilter.ofElements es).toOption) = _
  rw [ofForm?_list fun e _ => ofForm?_excludeElement e]
  rfl

end Form

namespace ExcludeFilter

variable {es : List ExcludeElement}

theorem ofForm?_eq_some_iff (f : ExcludeFilter) :
    ofForm? (toForm es) = some f ↔ ofElements es = .ok f := by
  rw [Form.ofForm?_elements]
  cases ofElements es <;> simp [Except.toOption]

theorem readExclude_eq_ok_iff (h : ∀ c ∈ componentsOf es, Wire.Sized c) (f : ExcludeFilter) :
    Wire.Reader.whole Wire.Reader.exclude
        (Wire.composite Wire.Tag.exclude (es.flatMap Wire.excludeElement)) = .ok f ↔
      ofElements es = .ok f := by
  have hread := Wire.Reader.exclude_elements h []
  rw [List.append_nil] at hread
  rw [Wire.Reader.whole, hread]
  cases ofElements es <;> simp

/-- Of the lists of elements just those in order give a filter, and a list that does is its
written order; any other is refused for its first element out of place. A filter comes back from
its written order, and the forms of a list are accepted as the list is. -/
theorem ofElements_exact (es : List ExcludeElement) :
    ((∃ f, ofElements es = .ok f) ↔ InOrder es) ∧
      (∀ f, ofElements es = .ok f → f.elements = es ∧ f.size = es.length ∧
        f.components = componentsOf es ∧ f.ranges.length = f.components.length + 1) ∧
      (∀ fault, ofElements es = .error fault ↔ FirstFault es fault) ∧
      (∀ f : ExcludeFilter, ofElements f.elements = .ok f) ∧
      (∀ f : ExcludeFilter, ofForm? (toForm es) = some f ↔ ofElements es = .ok f) ∧
      ((∀ c ∈ componentsOf es, Wire.Sized c) → ∀ f : ExcludeFilter,
        Wire.Reader.whole Wire.Reader.exclude
            (Wire.composite Wire.Tag.exclude (es.flatMap Wire.excludeElement)) = .ok f ↔
          ofElements es = .ok f) := by
  refine ⟨ofElements_accepts_iff, fun f hf => ?_, fun _ => ofElements_refuses_iff,
    ofElements_elements, ofForm?_eq_some_iff, readExclude_eq_ok_iff⟩
  have helements := elements_of_ofElements hf
  refine ⟨helements, ?_, (parts_of_ofElements hf).1, f.length_ranges⟩
  rw [← length_elements, helements]

theorem ofElements_exact_sample :
    ∃ f, ofElements sampleFilter.elements = .ok f ∧ f.size = 5 ∧
      (∀ c ∈ componentsOf sampleFilter.elements, Wire.Sized c) ∧
      Wire.Reader.whole Wire.Reader.exclude (Wire.composite Wire.Tag.exclude
        (sampleFilter.elements.flatMap Wire.excludeElement)) = .ok f := by
  obtain ⟨-, hparts, -, hback, -, hwire⟩ := ofElements_exact sampleFilter.elements
  have hok := hback sampleFilter
  have hsized : ∀ c ∈ componentsOf sampleFilter.elements, Wire.Sized c := by
    rw [componentsOf_elements]
    simp [sampleFilter, Wire.Sized]
  exact ⟨sampleFilter, hok, (hparts _ hok).2.1, hsized, (hwire hsized _).2 hok⟩

example : ofElements [.component [2], .any, .component [1]] = .error (.unsorted 2) := rfl

end ExcludeFilter

end NamedContent
