import NamedContent.Proofs.StepConcerns

/-! What steps do to retrievals, whoever is called and whatever arrives. A step moves the
discoveries of some retrievals, or makes one retrieval more, for a name that it registers; a
fan-out that was stopped stays so, and an owner stays who it is until it is gone. -/

namespace NamedContent

structure Retrieval.Moves (r r' : Retrieval) : Prop where
  discovery : r'.discovery = r.discovery ∨ ∃ m : Discovery.Move, r'.discovery = m.apply r.discovery
  fanOut : r.fanOut.phase = .stopped → r'.fanOut.phase = .stopped
  owner : r'.owner = r.owner ∨ r'.owner = .gone

theorem Retrieval.Moves.refl (r : Retrieval) : r.Moves r := ⟨.inl rfl, id, .inl rfl⟩

theorem Retrieval.Moves.owner_ne {r r' : Retrieval} (hmoves : r.Moves r') {l : ListenerId}
    (h : r.owner ≠ .listener l) : r'.owner ≠ .listener l := by
  rcases hmoves.owner with howner | howner
  · rwa [howner]
  · simp [howner]

namespace Session

variable {s s' : Session} {task : Task} {k id : Nat} {r : Retrieval}

def MovesAll (s s' : Session) : Prop :=
  ∃ f : Nat → Retrieval → Retrieval,
    (∀ k, s'.retrievals[k]? = (s.retrievals[k]?).map (f k)) ∧
    ∀ k (r : Retrieval), s.retrievals[k]? = some r → r.Moves (f k r)

namespace MovesAll

theorem of_eq (h : s'.retrievals = s.retrievals) : s.MovesAll s' :=
  ⟨fun _ r => r, fun k => by rw [h, Option.map_id'], fun _ r _ => .refl r⟩

theorem of_discovery (id : Nat) (g : Discovery → Discovery)
    (h : s'.retrievals = (s.modifyDiscovery id g).retrievals)
    (hg : ∀ r, s.retrievals[id]? = some r →
      ∃ m : Discovery.Move, g r.discovery = m.apply r.discovery) : s.MovesAll s' := by
  refine ⟨fun k r => { r with discovery := if id = k then g r.discovery else r.discovery },
    fun k => h ▸ s.modifyDiscovery_getElem? id k g, fun k r hr => ⟨?_, fun h => h, .inl rfl⟩⟩
  by_cases hid : id = k
  · subst hid
    exact .inr (by simpa using hg r hr)
  · simp [hid]

theorem of_fanOut (id : Nat) (g : FanOut → FanOut)
    (h : s'.retrievals = (s.modifyFanOut id g).retrievals)
    (hg : ∀ f, f.phase = .stopped → (g f).phase = .stopped) : s.MovesAll s' := by
  refine ⟨fun k r => { r with fanOut := if id = k then g r.fanOut else r.fanOut },
    fun k => h ▸ s.modifyFanOut_getElem? id k g, fun k r hr => ⟨.inl rfl, ?_, .inl rfl⟩⟩
  dsimp only
  split
  · exact hg r.fanOut
  · exact fun h => h

theorem of_act {registry : Option Registry} {g : FanOut → FanOut}
    {result : Discovery × List Action} {after : List Task} (hr : s.retrievals[id]? = some r)
    (hg : r.fanOut.phase = .stopped → (g r.fanOut).phase = .stopped)
    (hm : ∃ m : Discovery.Move, result.1 = m.apply r.discovery) :
    s.MovesAll ((({ s with registry } : Session).modifyFanOut id g).act id result after) := by
  refine ⟨fun k r =>
    { r with
      discovery := if id = k then result.1 else r.discovery
      fanOut := if id = k then g r.fanOut else r.fanOut }, fun k => ?_, fun k r' hr' => ?_⟩
  · rw [act_getElem?, modifyFanOut_getElem?, Option.map_map]
    rfl
  · by_cases hid : id = k
    · subst hid
      obtain rfl : r = r' := Option.some.inj (hr.symm.trans hr')
      simp only [if_pos]
      exact ⟨.inr hm, hg, .inl rfl⟩
    · simp only [if_neg hid]
      exact .refl r'

theorem of_event {result : Discovery × List Action} {after : List Task}
    (hr : s.retrievals[id]? = some r) (hm : ∃ m : Discovery.Move, result.1 = m.apply r.discovery) :
    s.MovesAll (s.act id result after) := by
  refine .of_discovery id (fun _ => result.1) rfl fun r' hr' => ?_
  obtain rfl : r = r' := Option.some.inj (hr.symm.trans hr')
  exact hm

theorem getElem? (h : s.MovesAll s') (hr : s.retrievals[k]? = some r) :
    ∃ r', s'.retrievals[k]? = some r' ∧ r.Moves r' := by
  obtain ⟨f, hget, hmoves⟩ := h
  exact ⟨f k r, by rw [hget, hr, Option.map_some], hmoves k r hr⟩

end MovesAll

open Discovery (Move)

def Grows (s s' : Session) : Prop :=
  ∃ registry n l d, s.registry = some registry ∧ s' = s.registered registry n l d

theorem Grows.getElem? (h : s.Grows s') (hr : s.retrievals[k]? = some r) :
    s'.retrievals[k]? = some r := by
  obtain ⟨registry, n, l, d, -, rfl⟩ := h
  exact (List.getElem?_append_left (List.getElem?_eq_some_iff.1 hr).1).trans hr

theorem Creates.grows (h : s.Creates s') : s.Grows s' := by
  obtain ⟨registry, n, l, exclusions, floor, hregistry, -, hs'⟩ := h
  exact ⟨registry, n, l, _, hregistry, hs'⟩

/-- A step moves the retrievals there are, or makes one more. -/
theorem Executed.movesAll_or_creates (h : Executed s task s') : s.MovesAll s' ∨ s.Creates s' := by
  cases h with
  | cancels id => exact .inl (.of_discovery id _ rfl fun r _ => ⟨.cancelled, rfl⟩)
  | @expressRefused id i => exact .inl (.of_discovery id _ rfl fun r _ => ⟨.refused i, rfl⟩)
  | @settleKeeps id i r₀ hr₀ | @settleCancels id i r₀ hr₀ =>
    refine .inl (.of_discovery id (fun _ => (r₀.discovery.settled i).1) rfl fun r hr =>
      ⟨.settled i, ?_⟩)
    obtain rfl : r₀ = r := Option.some.inj (hr₀.symm.trans hr)
    rfl
  | arrives c i hr => exact .inl (.of_event hr ⟨.arrive s.now c i, rfl⟩)
  | timesOut i hr => exact .inl (.of_event hr ⟨.timeout s.now i, rfl⟩)
  | countsFailure id => exact .inl (.of_fanOut id _ rfl fun _ h => h)
  | starts hc hr f hf => exact .inl (.of_act hr hf ⟨.start s.now, rfl⟩)
  | stops htends hr hf => exact .inl (.of_act hr hf ⟨.stop, rfl⟩)
  | stopsNext ids hr => exact .inl (.of_act hr (fun _ => rfl) ⟨.stop, rfl⟩)
  | refreshes ids now n hr => exact .inl (.of_event hr ⟨.refresh now, rfl⟩)
  | tends a htends hf => exact .inl (.of_fanOut _ _ rfl hf)
  | dropsOwner t id =>
    refine .inl ⟨fun k r => if id = k then { r with owner := .gone } else r,
      fun k => s.modifyRetrieval_getElem? id k _, fun k r _ => ?_⟩
    dsimp only
    split
    · exact ⟨.inl rfl, fun h => h, .inr rfl⟩
    · exact .refl r
  | registers hregistry n l ticks floorTicks hrange floor =>
    exact .inr ⟨_, n, l, _, floor, hregistry, hrange, rfl⟩
  | @closes _ hc registry =>
    refine .inl ⟨_, fun k => s.closeRegistry_getElem? registry k, fun k r _ =>
      ⟨.inl rfl, ?_, .inl rfl⟩⟩
    dsimp only
    split
    · exact fun _ => rfl
    · exact fun h => h
  | keeps n id hregistry hfind =>
    rw [keep, hfind]
    exact .inl (.of_eq rfl)
  | _ => exact .inl (.of_eq rfl)

theorem Executed.moves (h : Executed s task s') (hr : s.retrievals[k]? = some r) :
    ∃ r', s'.retrievals[k]? = some r' ∧ r.Moves r' := by
  rcases h.movesAll_or_creates with hmoves | hcreates
  · exact hmoves.getElem? hr
  · exact ⟨r, hcreates.grows.getElem? hr, .refl r⟩

theorem Executed.keeps_or_grows (h : Executed s task s') : s.Keeps s'.registry ∨ s.Grows s' := by
  cases h with
  | stops htends hr hf hfailures hkeeps => exact .inl hkeeps
  | closes hc hregistry hkeeps => exact .inl hkeeps
  | registers hregistry n l => exact .inr ⟨_, n, l, _, hregistry, rfl⟩
  | keeps n id hregistry hfind =>
    rw [keep, hfind]
    exact .inl (.refl s)
  | _ => exact .inl (.refl s)

theorem Executed.length_le (h : Executed s task s') :
    s.retrievals.length ≤ s'.retrievals.length := by
  refine Nat.le_of_not_lt fun hlt => ?_
  obtain ⟨r', hr', -⟩ := h.moves (List.getElem?_eq_getElem hlt)
  rw [List.getElem?_eq_none (Nat.le_refl _)] at hr'
  cases hr'

end Session

end NamedContent
