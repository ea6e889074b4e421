import NamedContent.Proofs.DeliverySafety
import NamedContent.Proofs.Ledger

/-! Calls of one who alone uses a discovery and its transport, given one after another. Every call
returns, and at each return after the start the owner has been handed the versions held by the
transport, each once, less the exclusions and those below the floor. -/

namespace NamedContent

section Running

variable {d : Discovery} {now : Time}

theorem Does.isRunning {issued : List Interest} {t : Transport Handler} {task : Task} {e : Effect}
    (h : Does issued d t task e) (hd : d.Sound)
    (hstop : task ≠ .command (.stopDiscovery .first)) (hrun : d.isRunning = true) :
    e.discovery.isRunning = true := by
  have hphase : ∀ {d' : Discovery}, d'.phase = d.phase → d'.isRunning = true := by
    intro d' heq
    rw [Discovery.isRunning, heq]
    exact hrun
  cases h with
  | start now =>
    refine Discovery.start_isRunning ?_
    rw [Discovery.isRunning_iff.1 hrun]
    simp
  | stop => exact absurd rfl hstop
  | expressRefused => exact hphase (Discovery.refused_frame d _).2
  | settleKeeps => exact hphase (Discovery.settled_frame d _).2
  | settleCancels => exact hphase (Discovery.settled_frame d _).2
  | arrive => exact hphase (Discovery.arrive_frame hd).2
  | timeout => exact hphase Discovery.timeout_frame.2
  | refreshNext => exact hphase (Discovery.refresh_frame d _).2
  | _ => exact hrun

end Running

namespace Ledger

variable {d₀ d : Discovery} {t : Transport Handler} {task : Task} {rest : List Task}

theorem created (h : d₀.Sound) (hphase : d₀.phase = .created) : Ledger d₀ d₀ {} [] where
  toBooks := .created h hphase (by simp)
  same := .refl d₀
  unstopped := by simp [hphase]
  live hrun := by simp [Discovery.isRunning, hphase] at hrun
  own := ⟨rfl, by simp⟩
  uses := by simp
  covered := by simp
  grounded v hv := .inl hv
  kept v hv := hv

theorem take_up (h : Ledger d₀ d t []) {c : Command} (hc : c.IsUse) :
    Ledger d₀ d t [.command c] where
  toBooks := h.toBooks.take_up hc.manages
  same := h.same
  unstopped := h.unstopped
  live := h.live
  own := h.own
  uses := List.forall_mem_singleton.2 hc
  covered c hc i hi v hv := by cases h.covered c hc i hi v hv
  grounded := h.grounded
  kept := h.kept

theorem asks (h : Ledger d₀ d t (task :: rest)) {c : Content} {i : Interest}
    (htask : task = .arrive (.retrieval 0) c i) : d₀.Asks i := by
  subst htask
  exact h.same.asks_iff.1 (h.sound.asks (h.mem_outstanding List.mem_cons_self))

theorem running_of_handOver (h : Ledger d₀ d t (task :: rest)) {c : Content} {i : Interest}
    (htask : task = .handOver 0 c i) : d.isRunning = true := by
  subst htask
  exact h.uses _ List.mem_cons_self

theorem not_stop (h : Ledger d₀ d t (task :: rest)) :
    task ≠ .command (.stopDiscovery .first) := by
  rintro rfl
  exact h.uses _ List.mem_cons_self

theorem isExcluded_iff (h : Ledger d₀ d t []) (hrun : d.isRunning = true) (v : Version) :
    d.isExcluded v = true ↔ d₀.isExcluded v = true ∨ ∃ c ∈ t.store, d₀.Matches c v := by
  refine ⟨h.grounded v, ?_⟩
  rintro (hv | ⟨c, hc, hmatches⟩)
  · exact h.kept v hv
  · rw [← Bool.not_eq_false]
    intro hnew
    obtain ⟨i, hi, hcarries⟩ :=
      h.sound.exists_carries (h.live hrun) (h.same.matches_iff.2 hmatches) hnew
    cases h.covered c hc i hi v hcarries

end Ledger

namespace Session

/-- Commands given one after another, each once the one before has returned, with all that has been
handed over, latest first. -/
inductive Plays (start : Session) : List Command → List Content → Session → Prop where
  | nil : Plays start [] start.handed start
  | call {cs : List Command} {handed : List Content} {s : Session} (h : Plays start cs handed s)
      (c : Command) (fuel : Nat) (hreturn : (s.give fuel c).agenda = []) :
      Plays start (cs ++ [c]) ((s.give fuel c).handed ++ handed) (s.give fuel c)

/-- What holds at every moment of a call, if `old` was handed over before it. -/
structure Counted (o : ListenerId) (d₀ : Discovery) (old : List Content) (s : Session)
    (d : Discovery) : Prop where
  solo : Solo o s d
  ledger : Ledger d₀ d s.transport s.agenda
  account : Account d₀ d (s.handed ++ old ++ handOvers s.agenda)
  complete : Complete d₀ d (s.handed ++ old ++ handOvers s.agenda)

/-- The discovery runs or is about to be started. -/
def Starting (s : Session) (d : Discovery) : Prop :=
  d.isRunning = true ∨ .command (.startDiscovery .first) ∈ s.agenda

variable {o : ListenerId} {d₀ d : Discovery} {old : List Content} {s : Session} {task : Task}
  {rest : List Task} {k : UInt64}

theorem Starting.advance {e : Effect} (h : Starting s d) (hagenda : s.agenda = task :: rest)
    (hledger : Ledger d₀ d s.transport (task :: rest))
    (hdoes : Does s.issued d s.transport task e) (hleads : Leads o s s.step rest e) :
    Starting s.step e.discovery := by
  rcases h with hrun | hmem
  · exact .inl (hdoes.isRunning hledger.sound hledger.not_stop hrun)
  · rw [hagenda, List.mem_cons] at hmem
    rcases hmem with rfl | hmem
    · cases hdoes with
      | start => exact .inl (Discovery.start_isRunning hledger.unstopped)
    · refine .inr ?_
      rw [hleads.agenda]
      exact List.mem_append_right _ hmem

namespace Counted

section Steps

variable (hk : d₀.config.additional = some k) (htwo : 2 ≤ k.toNat)

include hk htwo

theorem advance (h : Counted o d₀ old s d) (hagenda : s.agenda = task :: rest) :
    ∃ d', Counted o d₀ old s.step d' ∧ (Starting s d → Starting s.step d') ∧
      Shrinks (backlog 0 d' s.step.transport s.step.agenda)
        (backlog 0 d s.transport s.agenda) := by
  have hledger := h.ledger
  have haccount := h.account
  have hcomplete := h.complete
  rw [hagenda] at hledger haccount hcomplete
  obtain ⟨e, hdoes, hleads⟩ := h.solo.step_does hagenda hledger.isLocal
  have hasks : ∀ c i, task = .arrive (.retrieval 0) c i → d₀.Asks i := fun _ _ => hledger.asks
  have hrun : ∀ c i, task = .handOver 0 c i → d.isRunning = true := fun _ _ =>
    hledger.running_of_handOver
  refine ⟨e.discovery, ⟨hleads.solo, ?_, ?_, ?_⟩, ?_, ?_⟩
  · rw [hleads.transport, hleads.agenda]
    exact hledger.does hk htwo hdoes
  · rw [hleads.handed, hleads.agenda, List.append_assoc e.handed]
    exact haccount.does hdoes hledger.sound hledger.same hledger.kept hasks
  · rw [hleads.handed, hleads.agenda, List.append_assoc e.handed]
    exact hcomplete.does hdoes hledger.sound hledger.same hasks hrun
  · exact fun hstart => hstart.advance hagenda hledger hdoes hleads
  · rw [hleads.transport, hleads.agenda, hagenda]
    exact hledger.toBooks.backlog_does hdoes

theorem finish (h : Counted o d₀ old s d) (fuel : Nat) :
    ∃ d', Counted o d₀ old (s.finish fuel) d' ∧ (Starting s d → Starting (s.finish fuel) d') := by
  refine finish_keeps (P := fun s' d' => Counted o d₀ old s' d' ∧ (Starting s d → Starting s' d'))
    (fun {s' d'} hkept hleft => ?_) ⟨h, id⟩ fuel
  obtain ⟨task, rest, hagenda⟩ := List.exists_cons_of_ne_nil hleft
  obtain ⟨d'', hstep, hstart, -⟩ := hkept.1.advance hk htwo hagenda
  exact ⟨d'', hstep, hstart ∘ hkept.2⟩

theorem exists_finish (h : Counted o d₀ old s d) : ∃ fuel, (s.finish fuel).agenda = [] := by
  refine finish_ends (P := Counted o d₀ old) (f := fun s d => backlog 0 d s.transport s.agenda)
    shrinks_wellFounded (fun {s d} hkept hleft => ?_) h
  obtain ⟨task, rest, hagenda⟩ := List.exists_cons_of_ne_nil hleft
  obtain ⟨d', hstep, -, hless⟩ := hkept.advance hk htwo hagenda
  exact ⟨d', hstep, hless⟩

end Steps

theorem take_up (h : Counted o d₀ old s d) (hdone : s.agenda = []) {c : Command} (hc : c.IsUse) :
    Counted o d₀ (s.handed ++ old) { s with agenda := [.command c], log := [] } d := by
  have hledger := h.ledger
  have haccount := h.account
  have hcomplete := h.complete
  rw [hdone] at hledger haccount hcomplete
  exact ⟨⟨h.solo.retrievals, h.solo.passive⟩, hledger.take_up hc, haccount, hcomplete⟩

theorem opening (h : d₀.Sound) (hphase : d₀.phase = .created) (outcomes : List Outcome)
    (clock : Nat → Time) : Counted o d₀ [] (.opening d₀ o outcomes {} clock) d₀ where
  solo := solo_opening d₀ o outcomes {} clock
  ledger := .created h hphase
  account := .nil
  complete v hv hnew := by
    rw [hnew] at hv
    cases hv

theorem versions (h : Counted o d₀ old s d) (hdone : s.agenda = []) (hstart : Starting s d) :
    ∃ vs : List Version, vs.Nodup ∧
      (s.handed ++ old).map (fun c => Version.ofNameAt c.name d₀.basename.length) = vs.map .ok ∧
      ∀ v, v ∈ vs ↔ d₀.Wants v ∧ d₀.isExcluded v = false ∧
        ∃ c ∈ s.transport.store, d₀.Matches c v := by
  have hledger := h.ledger
  have haccount := h.account
  have hcomplete := h.complete
  rw [hdone] at hledger haccount hcomplete
  rw [handOvers_nil, List.append_nil] at haccount hcomplete
  have hrun : d.isRunning = true := by
    rw [Starting, hdone] at hstart
    simpa using hstart
  have hexcluded := hledger.isExcluded_iff hrun
  obtain ⟨vs, hnodup, hvs, hmem⟩ := haccount.versions
  refine ⟨vs, hnodup, hvs, fun v => ?_⟩
  rw [hmem]
  constructor
  · rintro ⟨c, hc, hname⟩
    obtain ⟨u, hu, hex, hnew, hwants⟩ := haccount.named c hc
    obtain rfl : u = v := by
      rw [← Except.ok.injEq (ε := VersionFault), ← hu.ofNameAt_eq, hname.ofNameAt_eq]
    refine ⟨hwants, hnew, ((hexcluded u).1 hex).resolve_left ?_⟩
    simp [hnew]
  · rintro ⟨hwants, hnew, hheld⟩
    exact hcomplete v ((hexcluded v).2 (.inr hheld)) hnew hwants

end Counted

section Plays

variable {outcomes : List Outcome} {clock : Nat → Time} {commands : List Command}
  {handed : List Content}

theorem Plays.counted (hk : d₀.config.additional = some k) (htwo : 2 ≤ k.toNat) (hd : d₀.Sound)
    (hphase : d₀.phase = .created) (huse : ∀ c ∈ commands, c.IsUse)
    (h : Plays (opening d₀ o outcomes {} clock) commands handed s) :
    ∃ old d, Counted o d₀ old s d ∧ s.agenda = [] ∧ handed = s.handed ++ old ∧
      (.startDiscovery .first ∈ commands → Starting s d) := by
  induction h with
  | nil => exact ⟨[], d₀, .opening hd hphase outcomes clock, rfl, rfl, by simp⟩
  | @call commands handed s _ c fuel hreturn ih =>
    obtain ⟨old, d, hcounted, hdone, rfl, hbegun⟩ :=
      ih fun c hc => huse c (List.mem_append_left _ hc)
    have hup := hcounted.take_up hdone (huse c (by simp))
    obtain ⟨d', hlast, hstart⟩ := hup.finish hk htwo fuel
    refine ⟨s.handed ++ old, d', hlast, hreturn, rfl, fun hmem => hstart ?_⟩
    rw [List.mem_append, List.mem_singleton] at hmem
    rcases hmem with hmem | rfl
    · have hrun := hbegun hmem
      rw [Starting, hdone] at hrun
      exact .inl (by simpa using hrun)
    · exact .inr List.mem_cons_self

theorem exists_plays (hk : d₀.config.additional = some k) (htwo : 2 ≤ k.toNat) (hd : d₀.Sound)
    (hphase : d₀.phase = .created) (huse : ∀ c ∈ commands, c.IsUse) :
    ∃ handed s, Plays (opening d₀ o outcomes {} clock) commands handed s := by
  induction commands using List.reverseRecOn with
  | nil => exact ⟨_, _, .nil⟩
  | append_singleton commands c ih =>
    have hbefore : ∀ c ∈ commands, c.IsUse := fun c hc => huse c (List.mem_append_left _ hc)
    obtain ⟨handed, s, h⟩ := ih hbefore
    obtain ⟨old, d, hcounted, hdone, -⟩ := h.counted hk htwo hd hphase hbefore
    obtain ⟨fuel, hreturn⟩ :=
      (hcounted.take_up hdone (huse c (by simp))).exists_finish hk htwo
    exact ⟨_, _, .call h c fuel hreturn⟩

/-- Content is held under the base name, the component of the version and as many components more
as make `k` with the digest. -/
def Holds (s : Session) (basename : Name) (k : UInt64) (v : Version) : Prop :=
  ∃ c ∈ s.transport.store, ∃ tail : List Component,
    c.name.components = basename.components ++ v.toComponent :: tail ∧ tail.length + 2 = k.toNat

theorem holds_iff (hk : d₀.config.additional = some k) (v : Version) :
    (∃ c ∈ s.transport.store, d₀.Matches c v) ↔ v.InRange ∧ s.Holds d₀.basename k v := by
  have hcount : ∀ (c : Content) (tail : List Component),
      c.name.components = d₀.basename.components ++ v.toComponent :: tail →
      (c.name.length + 1 = d₀.basename.length + k.toNat ↔ tail.length + 2 = k.toNat) := by
    intro c tail hname
    rw [Name.length, Name.length, hname, List.length_append, List.length_cons]
    omega
  constructor
  · rintro ⟨c, hc, ⟨hr, tail, hname⟩, hlength⟩
    exact ⟨hr, c, hc, tail, hname, (hcount c tail hname).1 (hlength k hk)⟩
  · rintro ⟨hr, c, hc, tail, hname, hlength⟩
    refine ⟨c, hc, ⟨hr, tail, hname⟩, fun k' hk' => ?_⟩
    obtain rfl : k = k' := Option.some.inj (hk.symm.trans hk')
    exact (hcount c tail hname).2 hlength

/-- Whatever is published, expired and refreshed in whatever order, each call returns; and whenever
one does after the start, the owner has been handed the versions held, each once, but for the
exclusions and those below the floor. -/
theorem calls_deliver_each_once {basename : Name} {config : Config} {trust : Trust}
    {exclusions : List Version} {floor : Option Version} {o : ListenerId}
    {outcomes : List Outcome} {clock : Nat → Time} {k : UInt64} {commands : List Command}
    (hvalid : config.Valid) (hk : config.additional = some k) (htwo : 2 ≤ k.toNat)
    (hrange : ∀ v ∈ exclusions, v.InRange) (huse : ∀ c ∈ commands, c.IsUse) :
    let start := opening (.create basename config trust exclusions floor) o outcomes {} clock
    (∃ handed s, Plays start commands handed s) ∧
    ∀ handed s, Plays start commands handed s → .startDiscovery .first ∈ commands →
      ∃ vs : List Version, vs.Nodup ∧
        handed.map (fun c => Version.ofNameAt c.name basename.length) = vs.map .ok ∧
        ∀ v, v ∈ vs ↔ v.InRange ∧ v ∉ exclusions ∧ (∀ f, floor = some f → ¬ v < f) ∧
          s.Holds basename k v := by
  intro start
  have hd := @Discovery.create_sound basename config trust exclusions floor hvalid hrange
  refine ⟨exists_plays hk htwo hd rfl huse, fun handed s hplays hbegun => ?_⟩
  obtain ⟨old, d, hcounted, hdone, rfl, hstart⟩ := hplays.counted hk htwo hd rfl huse
  obtain ⟨vs, hnodup, hvs, hmem⟩ := hcounted.versions hdone (hstart hbegun)
  refine ⟨vs, hnodup, hvs, fun v => ?_⟩
  rw [hmem, holds_iff hk, ← Bool.not_eq_true, Discovery.isExcluded_create hvalid hrange]
  constructor
  · rintro ⟨hwants, hnew, hr, hheld⟩
    exact ⟨hr, hnew, hwants, hheld⟩
  · rintro ⟨hr, hnew, hwants, hheld⟩
    exact ⟨hwants, hnew, hr, hheld⟩

def sampleCommands : List Command :=
  [.publish (sampleContent 7), .startDiscovery .first, .publish (sampleContent 5), .expireAll,
    .publish (sampleContent 9)]

theorem plays_sample : ∃ handed s, Plays sampleOpening sampleCommands handed s ∧
    handed = [sampleContent 9, sampleContent 7] := by
  have h₀ : Plays sampleOpening [] [] sampleOpening := .nil
  have h₁ := h₀.call (.publish (sampleContent 7)) 20 (by cbv)
  have h₂ := h₁.call (.startDiscovery .first) 20 (by cbv)
  have h₃ := h₂.call (.publish (sampleContent 5)) 20 (by cbv)
  have h₄ := h₃.call .expireAll 20 (by cbv)
  have h₅ := h₄.call (.publish (sampleContent 9)) 20 (by cbv)
  exact ⟨_, _, h₅, by cbv⟩

theorem calls_deliver_each_once_sample :
    ∃ s, Plays sampleOpening sampleCommands [sampleContent 9, sampleContent 7] s ∧
      ∃ vs : List Version, vs.Nodup ∧
        [sampleContent 9, sampleContent 7].map (fun c => Version.ofNameAt c.name 1) =
          vs.map .ok ∧
        ∀ v, v ∈ vs ↔ v.InRange ∧ v ∉ [⟨5⟩] ∧ (∀ f, none = some f → ¬ v < f) ∧
          s.Holds ⟨[[1]]⟩ 3 v := by
  have hvalid : Config.Valid {} := rfl
  have hk : ({} : Config).additional = some 3 := rfl
  have hrange : ∀ v ∈ [(⟨5⟩ : Version)], v.InRange := by decide
  have huse : ∀ c ∈ sampleCommands, c.IsUse := by simp [sampleCommands, Command.IsUse]
  obtain ⟨_, s, hplays, rfl⟩ := plays_sample
  obtain ⟨-, hall⟩ :=
    @calls_deliver_each_once ⟨[[1]]⟩ {} .exactKey [⟨5⟩] none "owner" [] (fun _ => 0) 3 _ hvalid hk
      (by decide) hrange huse
  exact ⟨s, hplays, hall _ s hplays (by simp [sampleCommands])⟩

end Plays

end Session

end NamedContent
