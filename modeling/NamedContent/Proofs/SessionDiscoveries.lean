import NamedContent.Proofs.Progress
import NamedContent.Proofs.ReachableDiscoveries
import NamedContent.Proofs.RetrievalMoves

/-! Discoveries inside sessions. Whatever commands are given, whatever listeners do when they are
called and whatever the transport answers, a session changes a discovery by moves only, and creates
one for a valid configuration and versions in range only. So every discovery of a session is
reachable, at every moment. -/

namespace NamedContent

theorem Retrieval.Moves.reachable {r r' : Retrieval} (hmoves : r.Moves r')
    (h : r.discovery.Reachable) : r'.discovery.Reachable := by
  rcases hmoves.discovery with hd | ⟨m, hd⟩
  · rwa [hd]
  · rw [hd]
    exact .move m h

namespace Session

/-- All discoveries are reachable, and those that a registry creates will be. -/
structure Lawful (s : Session) : Prop where
  retrievals : ∀ r ∈ s.retrievals, r.discovery.Reachable
  registry : ∀ registry, s.registry = some registry → registry.config.Valid

variable {s s' : Session} {task : Task} {id : Nat} {r : Retrieval}

namespace Lawful

theorem of_eq (h : s.Lawful) (hretrievals : s'.retrievals = s.retrievals)
    (hregistry : s'.registry = s.registry) : s'.Lawful := by
  refine ⟨?_, ?_⟩
  · rw [hretrievals]
    exact h.retrievals
  · rw [hregistry]
    exact h.registry

theorem sound (h : s.Lawful) (hr : s.retrievals[id]? = some r) : r.discovery.Sound :=
  (h.retrievals r (List.mem_of_getElem? hr)).sound

theorem movesAll (h : s.Lawful) (hmoves : s.MovesAll s') :
    ∀ r' ∈ s'.retrievals, r'.discovery.Reachable := by
  intro r' hr'
  obtain ⟨f, hget, hf⟩ := hmoves
  obtain ⟨k, hk⟩ := List.mem_iff_getElem?.1 hr'
  rw [hget, Option.map_eq_some_iff] at hk
  obtain ⟨r, hr, rfl⟩ := hk
  exact (hf k r hr).reachable (h.retrievals r (List.mem_of_getElem? hr))

theorem keeps (h : s.Lawful) {registry' : Option Registry} (hkeeps : s.Keeps registry') :
    ∀ new, registry' = some new → new.config.Valid := by
  intro new hnew
  obtain ⟨old, hold, hconfig, -, -⟩ := hkeeps new hnew
  rw [hconfig]
  exact h.registry old hold

theorem creates (h : s.Lawful) (hcreates : s.Creates s') : s'.Lawful := by
  obtain ⟨registry, n, l, exclusions, floor, hregistry, hrange, rfl⟩ := hcreates
  have hvalid : registry.config.Valid := h.registry registry hregistry
  refine ⟨fun r hr => ?_, ?_⟩
  · rcases List.mem_append.1 hr with hr | hr
    · exact h.retrievals r hr
    · obtain rfl := List.mem_singleton.1 hr
      exact .move (.start s.now) (.create n registry.trust floor hvalid hrange)
  · rintro _ ⟨⟩
    exact hvalid

end Lawful

theorem Executed.lawful (h : Executed s task s') (hlawful : s.Lawful) : s'.Lawful := by
  rcases h.movesAll_or_creates with hmoves | hcreates
  · refine ⟨hlawful.movesAll hmoves, ?_⟩
    rcases h.keeps_or_grows with hkeeps | ⟨registry, n, l, d, hregistry, rfl⟩
    · exact hlawful.keeps hkeeps
    · rintro _ ⟨⟩
      exact hlawful.registry registry hregistry
  · exact hlawful.creates hcreates

namespace Lawful

theorem step (h : s.Lawful) : s.step.Lawful := by
  cases hagenda : s.agenda with
  | nil => rwa [step_of_nil hagenda]
  | cons task rest =>
    have htaken : (s.taken rest).Lawful := h.of_eq rfl rfl
    exact (step_executed hagenda).lawful htaken

theorem finish (h : s.Lawful) (fuel : Nat) : (s.finish fuel).Lawful :=
  finish_induction (K := Lawful) (fun h => h.step) h fuel

theorem give (h : s.Lawful) (fuel : Nat) (c : Command) : (s.give fuel c).Lawful := by
  have htaken : ({ s with agenda := [.command c], log := [] } : Session).Lawful := h.of_eq rfl rfl
  exact htaken.finish fuel

theorem slots_partition (h : s.Lawful) (hr : r ∈ s.retrievals) : r.discovery.Partitioned :=
  (h.retrievals r hr).sound.slots_partition

end Lawful

end Session

end NamedContent
