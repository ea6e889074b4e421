import NamedContent.Proofs.FailedRegistrations
import NamedContent.Proofs.RegistryCalls

/-! A registry refines a set of pairs of a name and a listener. Calls to the registry may come in
any order, with whatever the transport is told in between; as long as listeners take no steps, each
call returns, it is answered as the pairs have it, and what can be seen of the registry after it is
what the pairs say. -/

namespace NamedContent

/-- Calls to a registry, and what the transport is told in between. -/
def Command.OnRegistry : Command → Prop
  | .express _ _ _ _ => True
  | .withdraw _ _ => True
  | .close => True
  | .refreshAll _ => True
  | .lookup _ => True
  | .publish _ => True
  | .expireAll => True
  | .refuseNext _ => True
  | _ => False

theorem Command.OnRegistry.byTransport {c : Command} (h : c.OnRegistry) : c.ByTransport := by
  cases c <;> first | exact True.intro | exact False.elim h

def Pairs.after (exchanges : List (Command × Answer)) : Pairs :=
  exchanges.foldl (fun M exchange => M.next exchange.1 exchange.2) ∅

namespace Session

variable {start s : Session} {registry : Registry} {M : Pairs} {n : Name} {l : ListenerId}
  {exchanges : List (Command × Answer)} {c : Command}

theorem Tallies.obeys (h : s.Tallies M) (hlawful : s.Lawful) (hsilent : s.Scripted fun _ => False)
    (hc : c.OnRegistry) : s.Obeys M c := by
  cases c with
  | express n l exclusions floor => exact h.obeys_express hlawful hsilent n l exclusions floor
  | withdraw n l => exact h.obeys_withdraw hlawful hsilent n l
  | close => exact h.obeys_close hlawful hsilent
  | refreshAll now => exact h.obeys_refreshAll hlawful hsilent now
  | lookup n => exact h.obeys_lookup hlawful hsilent n
  | publish c => exact h.obeys_publish hlawful hsilent c
  | expireAll => exact h.obeys_expireAll hlawful hsilent
  | refuseNext n => exact h.obeys_refuseNext hlawful hsilent n
  | _ => exact False.elim hc

/-- Sessions after calls that were made one after the other and have returned, with what each of
them was answered. -/
inductive Exchanges (start : Session) : List (Command × Answer) → Session → Prop where
  | nil : Exchanges start [] start
  | call {exchanges : List (Command × Answer)} {s : Session} (h : Exchanges start exchanges s)
      {c : Command} (hc : c.OnRegistry) {fuel : Nat} (hreturned : (s.give fuel c).agenda = []) :
      Exchanges start (exchanges ++ [(c, (s.give fuel c).answer)]) (s.give fuel c)

structure Fresh (s : Session) : Prop where
  opens : s.Opens
  registry : ∃ registry, s.registry = some registry
  retrievals : s.retrievals = []
  silent : s.Scripted fun _ => False

/-- What can be seen of a registry and of the retrievals that it has made. -/
structure Refines (s : Session) (registry : Registry) (M : Pairs) : Prop where
  present : s.registry = some registry
  contains : ∀ n, (registry.find? n).isSome ↔ n ∈ M.names
  size : registry.entries.length = M.names.card
  runs : ∀ n id, registry.find? n = some id → ∃ r, s.retrievals[id]? = some r ∧
    r.discovery.basename = n ∧ r.fanOut.phase = .running ∧ r.discovery.phase = .running ∧
    r.fanOut.listeners ≠ [] ∧ (∀ l, l ∈ r.fanOut.listeners ↔ (n, l) ∈ M) ∧
    r.fanOut.listeners.length = (M.under n).card
  discarded : ∀ id r, s.retrievals[id]? = some r → (∀ n, registry.find? n ≠ some id) →
    r.discovery.phase = .stopped ∧ r.discovery.outstanding = [] ∧
    ∀ p ∈ s.transport.pending, p.handler ≠ .retrieval id

/-- The registry, the discoveries and the transport are as they were, and so is who listens to the
names, but for one who has joined. -/
structure Joins (s s' : Session) : Prop where
  returned : s'.agenda = []
  answer : s'.answer = .done
  registry : s'.registry = s.registry
  transport : s'.transport = s.transport
  discoveries : s'.retrievals.map (·.discovery) = s.retrievals.map (·.discovery)

theorem Fresh.tallies (h : start.Fresh) : start.Tallies ∅ := by
  obtain ⟨registry, hregistry⟩ := h.registry
  refine ⟨⟨registry, hregistry, .empty (h.opens.registry registry hregistry).2 _⟩, ?_⟩
  simp [h.retrievals]

namespace Exchanges

theorem course (h : Exchanges start exchanges s) (hfresh : start.Fresh) :
    Course Command.ByTransport start s ∧ s.agenda = [] := by
  induction h with
  | nil => exact ⟨.start, hfresh.opens.idle⟩
  | call _ hc hreturned ih => exact ⟨ih.1.give ih.2 hc.byTransport _, hreturned⟩

theorem tallies (h : Exchanges start exchanges s) (hfresh : start.Fresh) :
    s.Tallies (.after exchanges) := by
  induction h with
  | nil => exact hfresh.tallies
  | @call exchanges s h c hc fuel hreturned ih =>
    have hcourse := (h.course hfresh).1
    have hobeys := ih.obeys (hcourse.lawful hfresh.opens.lawful) (hcourse.scripted hfresh.silent) hc
    rw [Pairs.after, List.foldl_append]
    exact (hobeys.2 fuel hreturned).2

end Exchanges

theorem Tallies.refines (h : s.Tallies M) (hinOrder : s.InOrder) (hdone : s.agenda = []) :
    ∃ registry, s.Refines registry M := by
  obtain ⟨registry, hregistry, hmaps⟩ := h.maps
  refine ⟨registry, hregistry, fun n => ?_, hmaps.size, fun n id hfind => ?_,
    fun id r hr hunlisted => ?_⟩
  · rw [Option.isSome_iff_ne_none, ne_eq, hmaps.find?_eq_none_iff, not_not]
  · obtain ⟨r, hr, hstanding, hne, hnodup, hmem⟩ := exists_of_find? hmaps hfind
    exact ⟨r, hr, congrArg Standing.basename hstanding, congrArg Standing.fanOut hstanding,
      congrArg Standing.discovery hstanding, hne, hmem, Registry.Maps.length_eq hnodup hmem⟩
  · have hlists : ¬ s.Lists id := by
      rw [lists_iff hregistry]
      intro hid
      obtain ⟨⟨n, k⟩, hentry, rfl⟩ := List.mem_map.1 hid
      obtain ⟨k', hfind⟩ := Option.ne_none_iff_exists'.1 fun hnone =>
        Registry.find?_eq_none_iff.1 hnone (List.mem_map_of_mem hentry)
      have hk : k' = k := hmaps.eq_of_mem (Registry.mem_of_find? hfind) hentry
      exact hunlisted n (hk ▸ hfind)
    obtain ⟨slots, r', hr', -, hphase, -⟩ :=
      h.discarded id (List.getElem?_eq_some_iff.1 hr).1 hlists
    obtain rfl : r' = r := Option.some.inj (hr'.symm.trans hr)
    have hsound := (hinOrder.lawful.retrievals r' (List.mem_of_getElem? hr)).sound
    exact ⟨hphase, hsound.outstanding_eq_nil (by simp [hphase]),
      fun p hp => hinOrder.nothing_waits hdone hr hphase hp⟩

theorem Tallies.joins (h : s.Tallies M) (hn : n ∈ M.names) (l : ListenerId)
    {exclusions : List UInt64} {floor : Option UInt64} (hrange : SeedsInRange exclusions floor)
    (fuel : Nat) :
    s.give (fuel + 1) (.express n l exclusions floor) = s.give (fuel + 1) (.express n l [] none) ∧
      s.Joins (s.give (fuel + 1) (.express n l exclusions floor)) ∧
      ((n, l) ∈ M →
        (s.give (fuel + 1) (.express n l exclusions floor)).retrievals = s.retrievals) := by
  obtain ⟨registry, hregistry, hmaps⟩ := h.maps
  obtain ⟨id, hfind⟩ := Option.ne_none_iff_exists'.1 fun hnone => hmaps.find?_eq_none_iff.1 hnone hn
  obtain ⟨r, hr, -, -, -, hmem⟩ := exists_of_find? hmaps hfind
  have hgive : ∀ {exclusions floor}, SeedsInRange exclusions floor →
      s.give (fuel + 1) (.express n l exclusions floor) =
        (((s.called (.express n l exclusions floor)).taken []).modifyFanOut id (·.add l)).reply
          .done := by
    intro exclusions floor hrange
    refine Eq.trans ?_ (called_express_known hregistry hfind hrange l)
    show (s.called (.express n l exclusions floor)).step.finish fuel = _
    rw [called_express_known hregistry hfind hrange]
    cases fuel <;> rfl
  have hunasked : SeedsInRange [] none := ⟨by simp, by simp⟩
  rw [hgive hrange, hgive hunasked]
  refine ⟨rfl, ⟨rfl, rfl, rfl, rfl, map_modify_of_eq fun _ _ => rfl⟩, fun hl => ?_⟩
  have hregistered : r.fanOut.isRegistered l = true := by
    simpa [FanOut.isRegistered] using (hmem l).2 hl
  have hadd : r.fanOut.add l = r.fanOut := by rw [FanOut.add, if_pos hregistered]
  have hsame : ∀ r', s.retrievals[id]? = some r' →
      { r' with fanOut := r'.fanOut.add l } = r' := fun r' hr' => by
    obtain rfl : r = r' := Option.some.inj (hr.symm.trans hr')
    rw [hadd]
  have hmodify := map_modify_of_eq (g := fun r : Retrieval => { r with fanOut := r.fanOut.add l })
    (f := fun r => r) hsame
  rwa [List.map_id', List.map_id'] at hmodify

/-- A registry over a transport behaves as a set of pairs of a name and a listener: registering
adds a pair unless it fails, leaving removes one and is answered by whether it was there, closing
removes them all. -/
theorem Exchanges.registry_refines_pairs (h : Exchanges start exchanges s) (hfresh : start.Fresh) :
    (∃ registry, s.Refines registry (.after exchanges)) ∧
    (∀ c : Command, c.OnRegistry → (∃ fuel, (s.give fuel c).agenda = []) ∧
      ∀ fuel, (s.give fuel c).agenda = [] →
        (Pairs.after exchanges).Allows c (s.give fuel c).answer ∧
        ∃ registry, (s.give fuel c).Refines registry
          ((Pairs.after exchanges).next c (s.give fuel c).answer)) ∧
    ∀ (n : Name) (l : ListenerId) (exclusions : List UInt64) (floor : Option UInt64) (fuel : Nat),
      n ∈ (Pairs.after exchanges).names → SeedsInRange exclusions floor →
      s.give (fuel + 1) (.express n l exclusions floor) =
          s.give (fuel + 1) (.express n l [] none) ∧
        s.Joins (s.give (fuel + 1) (.express n l exclusions floor)) ∧
        ((n, l) ∈ Pairs.after exchanges →
          (s.give (fuel + 1) (.express n l exclusions floor)).retrievals = s.retrievals) := by
  obtain ⟨hcourse, hdone⟩ := h.course hfresh
  have hnests : start.Scripted Command.Nests := hfresh.silent.mono fun _ => False.elim
  have htallies := h.tallies hfresh
  refine ⟨htallies.refines (hcourse.inOrder hfresh.opens hnests) hdone, fun c hc => ?_,
    fun n l exclusions floor fuel hn hrange => htallies.joins hn l hrange fuel⟩
  have hobeys := htallies.obeys (hcourse.lawful hfresh.opens.lawful)
    (hcourse.scripted hfresh.silent) hc
  refine ⟨hobeys.1, fun fuel hreturned => ?_⟩
  obtain ⟨hallows, hnext⟩ := hobeys.2 fuel hreturned
  have hgiven := hcourse.give hdone hc.byTransport fuel
  exact ⟨hallows, hnext.refines (hgiven.inOrder hfresh.opens hnests) hreturned⟩

section Samples

def sampleExchanges : List (Command × Answer) :=
  [(.express ⟨[[2]]⟩ "k" [] none, .done), (.refuseNext 1, .done),
    (.express ⟨[[1]]⟩ "l" [5, 9] none, .failed .refused)]

def sampleExchanged : Session := sampleRefusing.give 40 (.express ⟨[[1]]⟩ "l" [5, 9] none)

theorem Exchanges.registry_refines_pairs_sample :
    sampleHolding.Fresh ∧ Exchanges sampleHolding sampleExchanges sampleExchanged ∧
      (∃ registry, sampleExchanged.Refines registry {(⟨[[2]]⟩, "k")}) ∧
      (∃ fuel, (sampleExchanged.give fuel (.withdraw ⟨[[2]]⟩ "k")).agenda = [] ∧
        (sampleExchanged.give fuel (.withdraw ⟨[[2]]⟩ "k")).answer = .flag true ∧
        ∃ registry, (sampleExchanged.give fuel (.withdraw ⟨[[2]]⟩ "k")).Refines registry ∅) ∧
      sampleExchanged.Joins (sampleExchanged.give 1 (.express ⟨[[2]]⟩ "l" [7] (some 3))) := by
  have hfresh : sampleHolding.Fresh := ⟨opens_sampleHolding, ⟨_, rfl⟩, rfl,
    by simp [Scripted, sampleHolding]⟩
  have hfirst : (sampleHolding.give 20 (.express ⟨[[2]]⟩ "k" [] none)).agenda = [] := by cbv
  have hregistered : (sampleHolding.give 20 (.express ⟨[[2]]⟩ "k" [] none)).answer = .done := by cbv
  have hdone : sampleRefusing.agenda = [] := by cbv
  have htold : sampleRefusing.answer = .done := by cbv
  have hreturned : sampleExchanged.agenda = [] := by cbv
  have hfailed : sampleExchanged.answer = .failed .refused := by cbv
  have hexchanges : Exchanges sampleHolding sampleExchanges sampleExchanged := by
    have hcall := Exchanges.nil.call (c := .express ⟨[[2]]⟩ "k" [] none) True.intro hfirst
    have htell := hcall.call (c := .refuseNext 1) True.intro hdone
    have hfail := htell.call (c := .express ⟨[[1]]⟩ "l" [5, 9] none) True.intro hreturned
    rw [hregistered] at hfail
    change Exchanges _ ([] ++ [_] ++ [(_, sampleRefusing.answer)] ++ [(_, sampleExchanged.answer)])
      sampleExchanged at hfail
    rwa [htold, hfailed] at hfail
  have hafter : Pairs.after sampleExchanges = {(⟨[[2]]⟩, "k")} := rfl
  obtain ⟨hrefines, hcalls, hjoins⟩ := hexchanges.registry_refines_pairs hfresh
  rw [hafter] at hrefines hcalls hjoins
  obtain ⟨⟨fuel, hleft⟩, hleaves⟩ := hcalls (.withdraw ⟨[[2]]⟩ "k") True.intro
  obtain ⟨hflag, hempty⟩ := hleaves fuel hleft
  have hversions : ∀ v ∈ [(⟨7⟩ : Version), ⟨3⟩], v.InRange := by decide
  have hrange : SeedsInRange [7] (some 3) := by simpa [SeedsInRange] using hversions
  refine ⟨hfresh, hexchanges, hrefines, ⟨fuel, hleft, hflag, ?_⟩, ?_⟩
  · simpa [Pairs.next] using hempty
  · exact (hjoins ⟨[[2]]⟩ "l" [7] (some 3) 0 (by simp [Pairs.names]) hrange).2.1

end Samples

end Session

end NamedContent
