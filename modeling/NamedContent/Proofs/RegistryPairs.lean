import Mathlib.Data.Finset.Card
import Mathlib.Data.List.Nodup
import NamedContent.Proofs.PassiveSessions

/-! A registry as a set of pairs of a name and a listener. Each name that occurs in a pair has one
entry, and the retrieval of that entry runs for the listeners paired with the name. Each way to
change the entries or the listeners is a way to change the pairs. -/

namespace NamedContent

/-- Names with those who listen to them. -/
abbrev Pairs := Finset (Name × ListenerId)

namespace Pairs

def names (M : Pairs) : Finset Name := M.image Prod.fst

def under (M : Pairs) (n : Name) : Pairs := M.filter (·.1 = n)

theorem mem_names {M : Pairs} {n : Name} : n ∈ M.names ↔ ∃ l, (n, l) ∈ M := by
  simp [names]

end Pairs

namespace Registry

variable {registry : Registry} {standings standings' : List Standing} {M M' : Pairs} {n : Name}
  {l : ListenerId} {ls : List ListenerId} {id : Nat}

/-- The entries stand for the pairs. -/
structure Maps (registry : Registry) (standings : List Standing) (M : Pairs) : Prop where
  names : (registry.entries.map (·.1)).Nodup
  ids : (registry.entries.map (·.2)).Nodup
  occurs : ∀ {n l}, (n, l) ∈ M → n ∈ registry.entries.map (·.1)
  runs : ∀ {n id}, (n, id) ∈ registry.entries → ∃ ls, standings[id]? = some (.running n ls) ∧
    ls ≠ [] ∧ ls.Nodup ∧ ∀ l, l ∈ ls ↔ (n, l) ∈ M

theorem Maps.empty (h : registry.entries = []) (standings : List Standing) :
    registry.Maps standings ∅ := by
  constructor <;> simp [h]

theorem mem_of_find? (h : registry.find? n = some id) : (n, id) ∈ registry.entries := by
  rw [find?, Option.map_eq_some_iff] at h
  obtain ⟨⟨n', id'⟩, hfind, rfl⟩ := h
  obtain rfl : n' = n := by simpa using List.find?_some hfind
  exact List.mem_of_find?_eq_some hfind

theorem find?_eq_none_iff : registry.find? n = none ↔ n ∉ registry.entries.map (·.1) := by
  simp only [find?, Option.map_eq_none_iff, List.find?_eq_none, List.mem_map, not_exists]
  constructor
  · rintro h entry ⟨hentry, rfl⟩
    simpa using h entry hentry
  · intro h entry hentry heq
    exact h entry ⟨hentry, by simpa using heq⟩

namespace Maps

theorem mem_names_iff (h : registry.Maps standings M) :
    n ∈ registry.entries.map (·.1) ↔ n ∈ M.names := by
  rw [Pairs.mem_names]
  constructor
  · intro hn
    obtain ⟨⟨n', id⟩, hentry, rfl⟩ := List.mem_map.1 hn
    obtain ⟨ls, -, hne, -, hmem⟩ := h.runs hentry
    obtain ⟨l, hl⟩ := List.exists_mem_of_ne_nil ls hne
    exact ⟨l, (hmem l).1 hl⟩
  · rintro ⟨l, hl⟩
    exact h.occurs hl

theorem find?_eq_none_iff (h : registry.Maps standings M) :
    registry.find? n = none ↔ n ∉ M.names := by
  rw [Registry.find?_eq_none_iff, h.mem_names_iff]

theorem size (h : registry.Maps standings M) : registry.entries.length = M.names.card := by
  have hnames : (registry.entries.map (·.1)).toFinset = M.names := by
    ext n
    rw [List.mem_toFinset, h.mem_names_iff]
  rw [← hnames, List.toFinset_card_of_nodup h.names, List.length_map]

theorem length_eq (hnodup : ls.Nodup) (hmem : ∀ l, l ∈ ls ↔ (n, l) ∈ M) :
    ls.length = (M.under n).card := by
  have hunder : M.under n = ls.toFinset.image fun l => (n, l) := by
    ext ⟨n', l⟩
    simp only [Pairs.under, Finset.mem_filter, Finset.mem_image, List.mem_toFinset, Prod.mk.injEq]
    constructor
    · rintro ⟨hl, rfl⟩
      exact ⟨l, (hmem l).2 hl, rfl, rfl⟩
    · rintro ⟨l', hl', rfl, rfl⟩
      exact ⟨(hmem l').1 hl', rfl⟩
  rw [hunder, Finset.card_image_of_injective _ (Prod.mk_right_injective n),
    List.toFinset_card_of_nodup hnodup]

theorem eq_of_mem (h : registry.Maps standings M) {id' : Nat} (hid : (n, id) ∈ registry.entries)
    (hid' : (n, id') ∈ registry.entries) : id = id' :=
  congrArg Prod.snd (List.inj_on_of_nodup_map h.names hid hid' rfl)

theorem name_eq_of_mem (h : registry.Maps standings M) {n' : Name}
    (hid : (n, id) ∈ registry.entries) (hid' : (n', id) ∈ registry.entries) : n = n' :=
  congrArg Prod.fst (List.inj_on_of_nodup_map h.ids hid hid' rfl)

theorem id_lt (h : registry.Maps standings M) (hid : id ∈ registry.entries.map (·.2)) :
    id < standings.length := by
  obtain ⟨⟨n, k⟩, hentry, rfl⟩ := List.mem_map.1 hid
  obtain ⟨ls, hls, -⟩ := h.runs hentry
  exact (List.getElem?_eq_some_iff.1 hls).1

theorem of_listed (h : registry.Maps standings M)
    (hsame : ∀ k ∈ registry.entries.map (·.2), standings'[k]? = standings[k]?) :
    registry.Maps standings' M where
  names := h.names
  ids := h.ids
  occurs := h.occurs
  runs {n k} hk := by
    obtain ⟨ls, hls, hrest⟩ := h.runs hk
    exact ⟨ls, (hsame k (List.mem_map_of_mem hk)).trans hls, hrest⟩

theorem update (h : registry.Maps standings M) (hid : (n, id) ∈ registry.entries)
    (hself : standings'[id]? = some (.running n ls)) (hne : ls ≠ []) (hnodup : ls.Nodup)
    (hmem : ∀ l, l ∈ ls ↔ (n, l) ∈ M')
    (hothers : ∀ k, k ≠ id → standings'[k]? = standings[k]?)
    (hsame : ∀ n' l, n' ≠ n → ((n', l) ∈ M' ↔ (n', l) ∈ M)) : registry.Maps standings' M' where
  names := h.names
  ids := h.ids
  occurs {n' l} hl := by
    by_cases hn : n' = n
    · subst hn
      exact List.mem_map_of_mem hid
    · exact h.occurs ((hsame n' l hn).1 hl)
  runs {n' k} hk := by
    by_cases hn : n' = n
    · subst hn
      obtain rfl : k = id := h.eq_of_mem hk hid
      exact ⟨ls, hself, hne, hnodup, hmem⟩
    · have hkid : k ≠ id := fun heq => hn (h.name_eq_of_mem (heq ▸ hk) hid)
      obtain ⟨ls', hls', hne', hnodup', hmem'⟩ := h.runs hk
      exact ⟨ls', (hothers k hkid).trans hls', hne', hnodup', fun l =>
        (hmem' l).trans (hsame n' l hn).symm⟩

theorem insert (h : registry.Maps standings M) (hnew : registry.find? n = none)
    (hid : id ∉ registry.entries.map (·.2)) (hself : standings'[id]? = some (.running n [l]))
    (hothers : ∀ k, k ≠ id → standings'[k]? = standings[k]?) :
    (registry.insert n id).Maps standings' (Insert.insert (n, l) M) where
  names := by
    rw [Registry.find?_eq_none_iff] at hnew
    simpa [Registry.insert, List.nodup_append] using ⟨h.names, fun n' k hk heq =>
      hnew (heq ▸ List.mem_map_of_mem hk)⟩
  ids := by
    simpa [Registry.insert, List.nodup_append] using ⟨h.ids, fun k n' hk heq =>
      hid (heq ▸ List.mem_map_of_mem hk)⟩
  occurs {n' l'} hl := by
    rw [Finset.mem_insert] at hl
    rcases hl with heq | hl
    · simp [Registry.insert, (Prod.mk.inj heq).1]
    · simpa [Registry.insert] using .inl (by simpa using h.occurs hl)
  runs {n' k} hk := by
    simp only [Registry.insert, List.mem_append, List.mem_singleton, Prod.mk.injEq] at hk
    have hnot : n ∉ M.names := h.find?_eq_none_iff.1 hnew
    rcases hk with hk | ⟨rfl, rfl⟩
    · have hkid : k ≠ id := fun heq => hid (heq ▸ List.mem_map_of_mem hk)
      obtain ⟨ls, hls, hne, hnodup, hmem⟩ := h.runs hk
      refine ⟨ls, (hothers k hkid).trans hls, hne, hnodup, fun l' => ?_⟩
      have hn : n' ≠ n := fun heq => hnot (h.mem_names_iff.1 (heq ▸ List.mem_map_of_mem hk))
      simp [hmem, hn]
    · refine ⟨[l], hself, by simp, by simp, fun l' => ?_⟩
      have hnone : (n', l') ∉ M := fun hl => hnot (Pairs.mem_names.2 ⟨l', hl⟩)
      simp [hnone]

theorem erase (h : registry.Maps standings M) (hid : (n, id) ∈ registry.entries)
    (honly : ∀ l', (n, l') ∈ M → l' = l)
    (hothers : ∀ k, k ≠ id → standings'[k]? = standings[k]?) :
    (registry.erase n).Maps standings' (M.erase (n, l)) where
  names := h.names.sublist (List.filter_sublist.map _)
  ids := h.ids.sublist (List.filter_sublist.map _)
  occurs {n' l'} hl := by
    obtain ⟨hne, hmem⟩ := Finset.mem_erase.1 hl
    have hn : n' ≠ n := by
      rintro rfl
      exact hne (by rw [honly l' hmem])
    obtain ⟨⟨n'', k⟩, hk, rfl⟩ := List.mem_map.1 (h.occurs hmem)
    exact List.mem_map.2 ⟨(n'', k), by simpa [Registry.erase] using ⟨hk, hn⟩, rfl⟩
  runs {n' k} hk := by
    obtain ⟨hk, hn⟩ : (n', k) ∈ registry.entries ∧ n' ≠ n := by simpa [Registry.erase] using hk
    have hkid : k ≠ id := fun heq => hn (h.name_eq_of_mem (heq ▸ hk) hid)
    obtain ⟨ls, hls, hne, hnodup, hmem⟩ := h.runs hk
    refine ⟨ls, (hothers k hkid).trans hls, hne, hnodup, fun l' => ?_⟩
    simp [hmem, hn]

end Maps

end Registry

end NamedContent
