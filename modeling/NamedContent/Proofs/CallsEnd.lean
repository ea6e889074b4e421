import NamedContent.Proofs.Agreement

/-! Why expressing anew comes to an end. While a call is under way the transport may refuse now this
Interest and now that; what it has answered to an Interest outstanding still excludes a version
more, or a stray more in the slot that asked, or leaves that slot idle with nothing asked for. So
at every moment of a call there are only so many steps left. -/

namespace NamedContent

namespace Discovery

/-- What is left of a discovery by an answer to the Interest `i`, with the actions it asks for: a
version more is excluded, or a stray more in the slot that asked, or that slot is idle. -/
inductive Narrows (d : Discovery) (c : Content) (i : Interest) (d' : Discovery) :
    List Action → Prop where
  | version {v : Version} {actions : List Action}
      (hv : Version.ofNameAt c.name d.basename.length = .ok v) (hnew : d.isExcluded v = false)
      (hexcluded : ∀ u, d'.isExcluded u = true ↔ d.isExcluded u = true ∨ u = v) :
      Narrows d c i d' actions
  | stray {x : Component} {pre post : List Slot} {s t : Slot} {actions : List Action}
      (hslots : d.slots = pre ++ s :: post) (hs : s.outstanding = some i)
      (hx : c.name.component? d.basename.length = some x) (hnew : x ∉ s.partition.strays)
      (hslots' : d'.slots = pre ++ t :: post) (ht : t.partition = s.partition.insertStray x) :
      Narrows d c i d' actions
  | idle {pre post : List Slot} {s : Slot} (hslots : d.slots = pre ++ s :: post)
      (hs : s.outstanding = some i) (hslots' : d'.slots = pre ++ s.clear :: post) :
      Narrows d c i d' []

variable {d : Discovery} {c : Content} {i : Interest}

theorem Sound.narrows (now : Time) (h : d.Sound) (hi : i ∈ d.outstanding)
    (hacc : i.accepts d.trust c = true) :
    d.Narrows c i (d.arrive now c i).discovery (d.arrive now c i).actions := by
  have hrun := h.isRunning_of_outstanding hi
  obtain ⟨pre, s, post, hslots, hs, hask⟩ := exists_awaiting hi
  have hasked : d.slotAwaiting? i ≠ none := by simp [hask]
  have htaken : Taken d now c i (d.arrive now c i) := arrive_taken_asked h hrun hslots hs hask
  generalize d.arrive now c i = a at htaken
  cases htaken with
  | passedOver hnone => exact absurd hnone hasked
  | duplicate hnone => exact absurd hnone hasked
  | unasked hnone => exact absurd hnone hasked
  | mismatch _ _ hnot =>
    rw [hacc] at hnot
    cases hnot
  | ended hslots hs => exact .idle hslots hs rfl
  | stray hslots hs _ hx =>
    obtain ⟨-, hadmits⟩ := h.answer_admitted (by simp [hslots]) hs hacc hx
    exact .stray hslots hs hx hadmits.2.2 rfl Slot.fresh_partition
  | @version v pre post s hslots hs _ hv hcov hnew =>
    refine .version hv ?_ fun u => isExcluded_grown h hrun hslots hcov hnew u
    rw [← Bool.not_eq_true, h.isExcluded_iff_of_covers (by simp [hslots]) hcov]
    exact hnew

end Discovery

theorem Books.refusing {d : Discovery} {t : Transport Handler} {agenda : List Task}
    (h : Books d t agenda) (n : Nat) : Books d (t.refuseNext n) agenda :=
  ⟨h.sound, h.layered.mono id (List.Subset.refl _), h.balance, h.cancels_le, h.withdrawn⟩

namespace Session

def refusing (s : Session) (n : Nat) : Session := { s with transport := s.transport.refuseNext n }

/-- The moments of calls made one after the other, if what the transport refuses may change from
one moment to the next. -/
inductive Moment (start : Session) : Session → Prop where
  | start : Moment start start
  | call {s : Session} (h : Moment start s) (hreturned : s.agenda = []) {c : Command}
      (hc : c.Manages) : Moment start { s with agenda := [.command c], log := [] }
  | refusing {s : Session} (h : Moment start s) (n : Nat) : Moment start (s.refusing n)
  | step {s : Session} (h : Moment start s) : Moment start s.step

variable {o : ListenerId} {reach : Nat} {start s : Session} {d : Discovery}

theorem Booked.refusing (h : Booked o reach s d) (n : Nat) : Booked o reach (s.refusing n) d :=
  ⟨⟨h.hosts.retrievals, h.hosts.stops⟩, h.reach_eq, h.books.refusing n⟩

theorem Moment.booked {d₀ : Discovery} (hstart : Booked o reach start d₀)
    (h : Moment start s) : ∃ d, Booked o reach s d := by
  induction h with
  | start => exact ⟨d₀, hstart⟩
  | call _ hreturned hc ih =>
    obtain ⟨d, hbooked⟩ := ih
    exact ⟨d, hbooked.take_up hreturned hc⟩
  | refusing _ n ih =>
    obtain ⟨d, hbooked⟩ := ih
    exact ⟨d, hbooked.refusing n⟩
  | @step s _ ih =>
    obtain ⟨d, hbooked⟩ := ih
    by_cases hdone : s.agenda = []
    · rw [step_of_nil hdone]
      exact ⟨d, hbooked⟩
    · obtain ⟨d', hnext, -⟩ := hbooked.advance hdone
      exact ⟨d', hnext⟩

theorem Booked.exists_done (h : Booked o reach s d) {moments : Nat → Session}
    (hfirst : moments 0 = s) (hnext : ∀ k, ∃ n, moments (k + 1) = ((moments k).refusing n).step) :
    ∃ k, (moments k).agenda = [] := by
  induction hr : backlog reach d s.transport s.agenda using shrinks_wellFounded.induction
    generalizing s d moments with
  | _ b ih =>
    subst hr
    by_cases hdone : s.agenda = []
    · exact ⟨0, hfirst ▸ hdone⟩
    · obtain ⟨n, hsecond⟩ := hnext 0
      rw [hfirst] at hsecond
      obtain ⟨d', hbooked, hless⟩ := (h.refusing n).advance hdone
      let later : Nat → Session := fun k => moments (k + 1)
      have hnow : later 0 = (s.refusing n).step := hsecond
      obtain ⟨k, hk⟩ := ih _ hless hbooked hnow (fun k => hnext (k + 1)) rfl
      exact ⟨k + 1, hk⟩

theorem Booked.narrows (h : Booked o reach s d) {c : Content} {i : Interest} {rest : List Task}
    (hagenda : s.agenda = .arrive (.retrieval 0) c i :: rest) (hi : i ∈ d.outstanding) :
    ∃ d' actions after, s.step.discovery? = some d' ∧
      s.step.agenda = .perform 0 actions false :: after ++ rest ∧ d.Narrows c i d' actions := by
  have hbooks := h.books
  rw [hagenda] at hbooks
  have hacc := h.books.sound.accepts_whatever_trust hi d.trust hbooks.arriving.2
  have hquiet : (Task.arrive (.retrieval 0) c i).Quiet := rfl
  have htaken : Hosts o { s with agenda := rest, steps := s.steps + 1 } d :=
    ⟨h.hosts.retrievals, h.hosts.stops⟩
  obtain ⟨e, hdoes, hcomes⟩ := htaken.comes_quiet hquiet
  have hstep : s.step =
      ({ s with agenda := rest, steps := s.steps + 1 } : Session).doTask
        (.arrive (.retrieval 0) c i) := by
    rw [step, hagenda]
  rw [hstep]
  cases hdoes with
  | arrive now =>
    exact ⟨_, _, _, hcomes.hosts.discovery?_eq, hcomes.agenda, h.books.sound.narrows now hi hacc⟩

section Moments

variable {basename : Name} {config : Config} {trust : Trust} {exclusions : List Version}
  {floor : Option Version} {f : FanOut}

/-- Whatever the transport holds at first, whatever is started, stopped, refreshed, published and
expired, and whichever expressions are refused, at every moment there are only so many steps left
of a call; and every answer to an Interest outstanding narrows what the discovery asks for. -/
theorem Moment.narrows_and_ends (hvalid : config.Valid) (hrange : ∀ v ∈ exclusions, v.InRange)
    (hretrievals : start.retrievals =
      [{ discovery := .create basename config trust exclusions floor
         owner := .listener o, fanOut := f }])
    (hstops : start.StopsOnly) (hnone : ∀ p ∈ start.transport.pending, p.handler ≠ .retrieval 0)
    (hidle : start.agenda = []) (h : Moment start s) :
    (∃ fuel, (s.finish fuel).agenda = []) ∧
    (∀ moments : Nat → Session, moments 0 = s →
      (∀ k, ∃ n, moments (k + 1) = ((moments k).refusing n).step) →
      ∃ k, (moments k).agenda = []) ∧
    ∃ d, s.discovery? = some d ∧
      ∀ c i rest, s.agenda = .arrive (.retrieval 0) c i :: rest → i ∈ d.outstanding →
        ∃ d' actions after, s.step.discovery? = some d' ∧
          s.step.agenda = .perform 0 actions false :: after ++ rest ∧
          d.Narrows c i d' actions := by
  obtain ⟨d, hbooked⟩ := h.booked (.created hvalid hrange hretrievals hstops hnone hidle)
  exact ⟨hbooked.exists_finish, fun _ => hbooked.exists_done, d, hbooked.hosts.discovery?_eq,
    fun _ _ _ hagenda hi => hbooked.narrows hagenda hi⟩

def sampleLoose : Session :=
  { retrievals :=
      [{ discovery := .create ⟨[[1]]⟩ { additional := none, maxExcludes := 2 } .exactKey
           [⟨5⟩, ⟨9⟩] none
         owner := .listener "owner" }]
    transport := { store := [.unsigned ⟨[[1], [253, 0]]⟩ [], sampleContent 7] } }

def sampleArriving : Session :=
  ({ sampleLoose with
    agenda := [.command (.startDiscovery .first)], log := [] } : Session).step.step

def sampleAsked : Interest :=
  { name := ⟨[[1]]⟩
    exclude := (Partition.excludeFilter
      { lower := .first, upper := ⟨8⟩, excluded := [⟨5⟩] }).toOption }

theorem narrows_and_ends_sample : ∃ d rest, Moment sampleLoose sampleArriving ∧
    sampleArriving.discovery? = some d ∧
    sampleArriving.agenda =
      .arrive (.retrieval 0) (.unsigned ⟨[[1], [253, 0]]⟩ []) sampleAsked :: rest ∧
    sampleAsked ∈ d.outstanding ∧ (∃ fuel, (sampleArriving.finish fuel).agenda = []) ∧
    ∃ d' actions after, sampleArriving.step.discovery? = some d' ∧
      sampleArriving.step.agenda = .perform 0 actions false :: after ++ rest ∧
      d.Narrows (.unsigned ⟨[[1], [253, 0]]⟩ []) sampleAsked d' actions := by
  have hvalid : Config.Valid { additional := none, maxExcludes := 2 } := rfl
  have hrange : ∀ v ∈ [(⟨5⟩ : Version), ⟨9⟩], v.InRange := by decide
  have hstops : sampleLoose.StopsOnly := by simp [StopsOnly, sampleLoose]
  have hnone : ∀ p ∈ sampleLoose.transport.pending, p.handler ≠ .retrieval 0 := by
    simp [sampleLoose]
  have hstart : Command.Manages (.startDiscovery .first) := True.intro
  have h : Moment sampleLoose sampleArriving := (Moment.start.call rfl hstart).step.step
  have hhead : sampleArriving.agenda.head? =
      some (.arrive (.retrieval 0) (.unsigned ⟨[[1], [253, 0]]⟩ []) sampleAsked) := by cbv
  have hout : (sampleArriving.discovery?.map fun d => d.outstanding.head?) =
      some (some sampleAsked) := by cbv
  obtain ⟨rest, hagenda⟩ := List.head?_eq_some_iff.1 hhead
  obtain ⟨hends, -, d, hd, hnarrows⟩ := h.narrows_and_ends hvalid hrange rfl hstops hnone rfl
  rw [hd, Option.map_some, Option.some.injEq] at hout
  have hi : sampleAsked ∈ d.outstanding := List.mem_of_head? hout
  exact ⟨d, rest, h, hd, hagenda, hi, hends, hnarrows _ _ _ hagenda hi⟩

end Moments

end Session

end NamedContent
