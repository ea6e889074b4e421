import NamedContent.Proofs.Registrations
import NamedContent.Proofs.RegistryPairs

/-! When a registry stands for a set of pairs: each name that occurs in a pair has a retrieval of
its own, which runs for the listeners paired with the name, and every other retrieval has been
stopped. So it stays when one retrieval gains or loses a listener, when a name is given up, and when
a new one is registered or its registration taken back. -/

namespace NamedContent

namespace Pairs

def next (M : Pairs) : Command → Answer → Pairs
  | .express _ _ _ _, .failed _ => M
  | .express n l _ _, _ => insert (n, l) M
  | .withdraw n l, _ => M.erase (n, l)
  | .close, _ => ∅
  | _, _ => M

/-- What a call may be answered, going by the pairs. -/
def Allows (M : Pairs) : Command → Answer → Prop
  | .express _ _ _ _, a => a = .done ∨ ∃ fault, a = .failed fault
  | .withdraw n l, a => a = .flag (decide ((n, l) ∈ M))
  | .close, a => a = .done
  | .lookup n, a => a = .presence (decide (n ∈ M.names)) (M.under n).card
  | _, _ => True

end Pairs

namespace FanOut

variable {f : FanOut} {l l' : ListenerId}

theorem add_phase (f : FanOut) (l : ListenerId) : (f.add l).phase = f.phase := by
  rw [add]
  split <;> rfl

theorem mem_add : l' ∈ (f.add l).listeners ↔ l' ∈ f.listeners ∨ l' = l := by
  rw [add]
  split
  · rename_i hregistered
    have hl : l ∈ f.listeners := by simpa [isRegistered] using hregistered
    exact ⟨.inl, fun hl' => hl'.elim id fun heq => heq ▸ hl⟩
  · simp

theorem nodup_add (h : f.listeners.Nodup) : (f.add l).listeners.Nodup := by
  rw [add]
  split
  · exact h
  · rename_i hregistered
    have hl : l ∉ f.listeners := by simpa [isRegistered] using hregistered
    simpa [List.nodup_append] using ⟨h, fun l' hl' heq => hl (heq ▸ hl')⟩

end FanOut

namespace Session

variable {s s' : Session} {M : Pairs} {n : Name} {l : ListenerId} {k : Nat} {c : Command}
  {a : Answer} {fuel : Nat}

theorem stopped_iff_standing :
    s.Stopped k ↔ ∃ standing, (s.retrievals.map (·.standing))[k]? = some standing ∧
      standing.fanOut = .stopped ∧ standing.discovery = .stopped := by
  rw [List.getElem?_map]
  constructor
  · rintro ⟨slots, r, hr, hfanOut, hphase, -⟩
    exact ⟨r.standing, by rw [hr, Option.map_some], hfanOut, hphase⟩
  · rintro ⟨standing, hstanding, hfanOut, hphase⟩
    obtain ⟨r, hr, rfl⟩ := Option.map_eq_some_iff.1 hstanding
    exact ⟨r.discovery.slots, r, hr, hfanOut, hphase, rfl⟩

/-- The registry stands for the pairs, and what it does not list has been stopped. -/
structure Tallies (s : Session) (M : Pairs) : Prop where
  maps : ∃ registry, s.registry = some registry ∧
    registry.Maps (s.retrievals.map (·.standing)) M
  discarded : ∀ k < s.retrievals.length, ¬ s.Lists k → s.Stopped k

theorem Tallies.of_eq (h : s.Tallies M) (hregistry : s'.registry = s.registry)
    (hstandings : s'.retrievals.map (·.standing) = s.retrievals.map (·.standing)) :
    s'.Tallies M where
  maps := by
    rw [hregistry, hstandings]
    exact h.maps
  discarded k hk hlists := by
    have hlength := congrArg List.length hstandings
    rw [List.length_map, List.length_map] at hlength
    rw [stopped_iff_standing, hstandings, ← stopped_iff_standing]
    refine h.discarded k (hlength ▸ hk) ?_
    rintro ⟨registry, hsome, hid⟩
    exact hlists ⟨registry, hregistry.trans hsome, hid⟩

section Changes

variable {registry : Registry} {id : Nat}

theorem Stopped.of_getElem? (h : s.Stopped k) (heq : s'.retrievals[k]? = s.retrievals[k]?) :
    s'.Stopped k := by
  obtain ⟨slots, r, hr, hrest⟩ := h
  exact ⟨slots, r, heq.trans hr, hrest⟩

theorem exists_of_find? (hmaps : registry.Maps (s.retrievals.map (·.standing)) M)
    (hfind : registry.find? n = some id) :
    ∃ r, s.retrievals[id]? = some r ∧ r.standing = .running n r.fanOut.listeners ∧
      r.fanOut.listeners ≠ [] ∧ r.fanOut.listeners.Nodup ∧
      ∀ l, l ∈ r.fanOut.listeners ↔ (n, l) ∈ M := by
  obtain ⟨ls, hstanding, hne, hnodup, hmem⟩ := hmaps.runs (Registry.mem_of_find? hfind)
  rw [List.getElem?_map, Option.map_eq_some_iff] at hstanding
  obtain ⟨r, hr, hrunning⟩ := hstanding
  obtain rfl : ls = r.fanOut.listeners := (congrArg Standing.listeners hrunning).symm
  exact ⟨r, hr, hrunning, hne, hnodup, hmem⟩

theorem length_act (s : Session) (id : Nat) (f : FanOut → FanOut) (registry : Option Registry)
    (result : Discovery × List Action) (after : List Task) :
    ((({ s with registry } : Session).modifyFanOut id f).act id result after).retrievals.length =
      s.retrievals.length := by
  simp [act, modifyDiscovery, modifyFanOut, modifyRetrieval, push]

theorem Tallies.maps_of (h : s.Tallies M) (hregistry : s.registry = some registry) :
    registry.Maps (s.retrievals.map (·.standing)) M := by
  obtain ⟨registry', hsome, hmaps⟩ := h.maps
  rwa [Option.some.inj (hregistry.symm.trans hsome)]

theorem standings_getElem? (h : s'.retrievals[k]? = s.retrievals[k]?) :
    (s'.retrievals.map (·.standing))[k]? = (s.retrievals.map (·.standing))[k]? := by
  rw [List.getElem?_map, h, List.getElem?_map]

theorem Tallies.change (h : s.Tallies M) (hregistry : s.registry = some registry)
    {registry' : Registry} (hregistry' : s'.registry = some registry') {M' : Pairs}
    (hmaps : registry'.Maps (s'.retrievals.map (·.standing)) M')
    (hothers : ∀ k, k ≠ id → s'.retrievals[k]? = s.retrievals[k]?)
    (hkept : ∀ k, k ≠ id → k ∈ registry.entries.map (·.2) → k ∈ registry'.entries.map (·.2))
    (hself : id ∈ registry'.entries.map (·.2) ∨ s'.Stopped id) : s'.Tallies M' := by
  refine ⟨⟨registry', hregistry', hmaps⟩, fun k hk hlists => ?_⟩
  rw [lists_iff hregistry'] at hlists
  by_cases hkid : k = id
  · subst hkid
    exact hself.resolve_left hlists
  · have hsame := hothers k hkid
    have hlt : k < s.retrievals.length := by
      rw [List.getElem?_eq_getElem hk] at hsame
      exact (List.getElem?_eq_some_iff.1 hsame.symm).1
    refine (h.discarded k hlt ?_).of_getElem? hsame
    rw [lists_iff hregistry]
    exact fun hlisted => hlists (hkept k hkid hlisted)

theorem Tallies.desert (h : s.Tallies M) (hregistry : s.registry = some registry)
    (hfind : registry.find? n = some id) (honly : ∀ l', (n, l') ∈ M → l' = l)
    (hregistry' : s'.registry = some (registry.erase n)) (hstopped : s'.Stopped id)
    (hothers : ∀ k, k ≠ id → s'.retrievals[k]? = s.retrievals[k]?) :
    s'.Tallies (M.erase (n, l)) := by
  have hmaps := h.maps_of hregistry
  have hid := Registry.mem_of_find? hfind
  refine h.change hregistry hregistry' (hmaps.erase hid honly fun k hk => ?_) hothers
    (fun k hkid hk => ?_) (.inr hstopped)
  · exact standings_getElem? (hothers k hk)
  · obtain ⟨⟨n', k'⟩, hentry, rfl⟩ := List.mem_map.1 hk
    have hn : n' ≠ n := fun heq => hkid (hmaps.eq_of_mem (heq ▸ hentry) hid)
    refine List.mem_map.2 ⟨(n', k'), ?_, rfl⟩
    simpa [Registry.erase] using ⟨hentry, hn⟩

theorem Tallies.update (h : s.Tallies M) (hregistry : s.registry = some registry)
    (hfind : registry.find? n = some id) {r : Retrieval} (hr : s.retrievals[id]? = some r)
    (hstanding : r.standing = .running n r.fanOut.listeners) {f : FanOut → FanOut}
    (hf : (f r.fanOut).phase = r.fanOut.phase) (hne : (f r.fanOut).listeners ≠ [])
    (hnodup : (f r.fanOut).listeners.Nodup) {M' : Pairs}
    (hmem : ∀ l, l ∈ (f r.fanOut).listeners ↔ (n, l) ∈ M')
    (hsame : ∀ n' l, n' ≠ n → ((n', l) ∈ M' ↔ (n', l) ∈ M))
    (hregistry' : s'.registry = some registry)
    (hretrievals : s'.retrievals = (s.modifyFanOut id f).retrievals) : s'.Tallies M' := by
  have hid := Registry.mem_of_find? hfind
  have hothers : ∀ k, k ≠ id → s'.retrievals[k]? = s.retrievals[k]? := fun k hk =>
    getElem?_of_ne hretrievals hk
  have hself : (s'.retrievals.map (·.standing))[id]? =
      some (.running n (f r.fanOut).listeners) := by
    rw [List.getElem?_map, hretrievals, modifyFanOut_getElem?, hr, Option.map_some,
      Option.map_some, if_pos rfl]
    simp only [Retrieval.standing, Standing.running, Standing.mk.injEq, Option.some.injEq]
      at hstanding ⊢
    simp [hstanding, hf]
  exact h.change hregistry hregistry' ((h.maps_of hregistry).update hid hself hne hnodup hmem
    (fun k hk => standings_getElem? (hothers k hk)) hsame) hothers (fun _ _ hk => hk)
    (.inl (List.mem_map_of_mem hid))

theorem withdraw_absent (hregistry : s.registry = some registry)
    (habsent : ∀ id r, registry.find? n = some id → s.retrievals[id]? = some r →
      l ∉ r.fanOut.listeners) (hplaced : ∀ id, registry.find? n = some id →
      ∃ r, s.retrievals[id]? = some r) : s.withdraw n l none = s.reply (.flag false) := by
  rw [withdraw, hregistry, Option.bind_some]
  cases hfind : registry.find? n with
  | none => rfl
  | some id =>
    obtain ⟨r, hr⟩ := hplaced id hfind
    have hnot : r.fanOut.isRegistered l = false := by
      simpa [FanOut.isRegistered] using habsent id r hfind hr
    simp only [Option.map_some, withRetrieval, hr, hnot, Bool.false_eq_true, if_false,
      Option.getD_none]

theorem withdraw_other (hregistry : s.registry = some registry)
    (hfind : registry.find? n = some id) {r : Retrieval} (hr : s.retrievals[id]? = some r)
    (hl : l ∈ r.fanOut.listeners) (hothers : (r.fanOut.remove l).listeners ≠ []) :
    s.withdraw n l none = (s.modifyFanOut id (·.remove l)).reply (.flag true) := by
  have hregistered : r.fanOut.isRegistered l = true := by simpa [FanOut.isRegistered] using hl
  rw [withdraw]
  simp only [s.bind_find?_eq_some.2 ⟨hregistry, hfind⟩, withRetrieval, hr, hregistered, if_true,
    List.isEmpty_eq_false_iff.2 hothers, Bool.false_eq_true, if_false, Option.getD_none]

theorem Tallies.of_stands (h : s.Tallies M) (hregistry : s.registry = some registry)
    (hnew : registry.find? n = none) (hbeside : s.Beside s.retrievals.length s')
    (hstands : Stands s registry n l s') : s'.Tallies (insert (n, l) M) := by
  have hmaps := h.maps_of hregistry
  have hid : s.retrievals.length ∉ registry.entries.map (·.2) := fun hid => by
    simpa using hmaps.id_lt hid
  refine h.change hregistry hstands.registry (hmaps.insert hnew hid hstands.standing fun k hk => ?_)
    hbeside.retrievals (fun k _ hk => ?_) (.inl ?_)
  · exact standings_getElem? (hbeside.retrievals k hk)
  · rw [Registry.insert, List.map_append]
    exact List.mem_append_left _ hk
  · simp [Registry.insert]

theorem Tallies.of_gone (h : s.Tallies M) (hregistry : s.registry = some registry)
    (hbeside : s.Beside s.retrievals.length s') (hgone : Gone s registry s') : s'.Tallies M := by
  have hmaps := h.maps_of hregistry
  refine h.change hregistry hgone.registry (hmaps.of_listed fun k hk => ?_) hbeside.retrievals
    (fun _ _ => id) (.inr hgone.stopped)
  have hlt : k < s.retrievals.length := by simpa using hmaps.id_lt hk
  exact standings_getElem? (hbeside.retrievals k hlt.ne)

theorem Tallies.placed_called (h : s.Tallies M) (c : Command) : (s.called c).Placed := by
  obtain ⟨registry, hregistry, hmaps⟩ := h.maps
  refine ⟨fun k hk => ?_, List.forall_mem_singleton.2 fun _ => (absurd · List.not_mem_nil)⟩
  rw [lists_iff (s := s.called c) hregistry] at hk
  obtain ⟨⟨n, k⟩, hentry, rfl⟩ := List.mem_map.1 hk
  obtain ⟨ls, hstanding, -⟩ := hmaps.runs hentry
  rw [List.getElem?_map, Option.map_eq_some_iff] at hstanding
  obtain ⟨r, hr, hrunning⟩ := hstanding
  refine ⟨r, hr, fun l howner => ?_⟩
  rw [show r.owner = .fanOut from congrArg Standing.owner hrunning] at howner
  cases howner

end Changes

end Session

end NamedContent
