import NamedContent.Proofs.Accounts

/-! Runs of a discovery among surroundings that do as they please: at every moment a call may come
in from outside, also while another is under way, and the transport may be in any state, so that it
refuses, keeps or answers what is expressed. Nothing is handed over twice, nor anything that was
not asked for. -/

namespace NamedContent

def Command.IsCall : Command → Prop
  | .startDiscovery .first => True
  | .stopDiscovery .first => True
  | .refresh .first _ => True
  | .timeout .first _ => True
  | .arrive .first _ (.issued _) => True
  | _ => False

namespace Session

/-- A session about a discovery that belongs to the listener `o`, over any transport and clock. -/
def opening (d : Discovery) (o : ListenerId) (outcomes : List Outcome) (t : Transport Handler)
    (clock : Nat → Time) : Session :=
  { transport := t, retrievals := [{ discovery := d, owner := .listener o }]
    scripts := [(o, { outcomes })], clock }

def discovery? (s : Session) : Option Discovery := s.retrievals.head?.map (·.discovery)

def taking (s : Session) : List Version :=
  match s.agenda, s.discovery? with
  | task :: _, some d => task.takes d
  | _, _ => []

/-- What the surroundings may do between two steps. Several calls may be under way at once. -/
inductive Intervenes (s : Session) : Session → Prop where
  | call {c : Command} (hc : c.IsCall) : Intervenes s (s.push [.command c])
  | transport (t : Transport Handler) : Intervenes s { s with transport := t }
  | interleave {agenda : List Task} (h : s.agenda.Perm agenda) :
      Intervenes s { s with agenda }

/-- A run, with the versions absorbed on the way. -/
inductive Run (start : Session) : List Version → Session → Prop where
  | refl : Run start [] start
  | step {vs : List Version} {s : Session} (h : Run start vs s) :
      Run start (s.taking ++ vs) s.step
  | intervene {vs : List Version} {s s' : Session} (h : Run start vs s) (hs : s.Intervenes s') :
      Run start vs s'

/-- What the owner of a discovery may rely on, given the versions absorbed so far. -/
structure Safe (basename : Name) (exclusions : List Version) (floor : Option Version)
    (absorbed : List Version) (s : Session) (d : Discovery) : Prop where
  once : ∃ vs : List Version, vs.Nodup ∧
    s.handed.map (fun c => Version.ofNameAt c.name basename.length) = vs.map .ok ∧
    ∀ v ∈ vs, v ∈ absorbed ∧ v ∉ exclusions ∧ ∀ f, floor = some f → ¬ v < f
  named : ∀ c ∈ s.handed, ∃ (v : Version) (tail : List Component), v.InRange ∧
    c.name.components = basename.components ++ v.toComponent :: tail
  running : s.step.handed ≠ s.handed → d.isRunning = true
  untouched : ∀ s', s.Intervenes s' → s'.handed = s.handed
  excluded : ∀ v, d.isExcluded v = true ↔ v ∈ exclusions ∨ v ∈ absorbed
  kept : ∀ s' d', s' = s.step ∨ s.Intervenes s' → s'.discovery? = some d' →
    ∀ v, d.isExcluded v = true → d'.isExcluded v = true

theorem solo_opening (d : Discovery) (o : ListenerId) (outcomes : List Outcome)
    (t : Transport Handler) (clock : Nat → Time) : Solo o (opening d o outcomes t clock) d :=
  ⟨⟨{}, rfl⟩, by simp [opening, script]⟩

variable {o : ListenerId} {s s' : Session} {d₀ d : Discovery}

theorem Solo.discovery?_eq (h : Solo o s d) : s.discovery? = some d := by
  obtain ⟨f, hr⟩ := h.retrievals
  rw [discovery?, hr]
  rfl

end Session

def Task.Proper (d : Discovery) : Task → Prop
  | .command c => c.IsCall
  | .answer _ => True
  | .perform id actions _ => id = 0 ∧ ∀ i, .express i ∈ actions → d.Asks i
  | .settle id _ => id = 0
  | .arrive h _ i => h = .retrieval 0 ∧ d.Asks i
  | .timeout h _ => h = .retrieval 0
  | .handOver id _ _ => id = 0
  | .refreshAll ids _ _ => ∀ id ∈ ids, id = 0
  | _ => False

theorem Command.IsCall.isLocal {c : Command} (h : c.IsCall) : c.Local := by
  unfold IsCall at h
  split at h <;> first | exact True.intro | cases h

theorem Task.Proper.isLocal {d : Discovery} {task : Task} (h : task.Proper d) : task.Local := by
  unfold Proper at h
  split at h
  · exact h.isLocal
  · exact True.intro
  · exact h.1
  · exact h
  · exact h.1
  · exact h
  · exact h
  · exact h
  · cases h

theorem Task.Proper.tail {d : Discovery} {id : Nat} {action : Action} {actions : List Action}
    {anyRefused : Bool} (h : (Task.perform id (action :: actions) anyRefused).Proper d)
    {i : Interest} (hi : .express i ∈ actions) : d.Asks i :=
  h.2 i (List.mem_cons_of_mem action hi)

section Steps

variable {issued : List Interest} {d₀ d : Discovery} {t : Transport Handler} {task : Task}
  {e : Effect}

theorem Does.proper (h : Does issued d t task e) (hd : d.Sound) (hsame : d₀.SameTask d)
    (hissued : ∀ i ∈ issued, d₀.Asks i) (hproper : task.Proper d₀) :
    (∀ t' ∈ e.tasks, t'.Proper d₀) ∧ ∀ i ∈ e.expressed, d₀.Asks i := by
  cases h with
  | start now =>
    simpa [Task.Proper] using fun i hi => hsame.asks_iff.1 (Discovery.asks_of_start hi)
  | stop =>
    simpa [Task.Proper] using fun i (hi : .express i ∈ d.stop.2) =>
      absurd hi Discovery.not_express_mem_stop
  | knownArrival c hi => simpa [Task.Proper] using hissued _ (List.mem_of_getElem? hi)
  | cancel i rest => simpa [Task.Proper] using fun j hj => hproper.tail hj
  | @expressRefused i rest =>
    have hi : d₀.Asks i := hproper.2 i List.mem_cons_self
    simpa [Task.Proper] using ⟨fun j hj => hproper.tail hj, hi⟩
  | @expressWaits i rest =>
    have hi : d₀.Asks i := hproper.2 i List.mem_cons_self
    simpa [Task.Proper] using ⟨fun j hj => hproper.tail hj, hi⟩
  | @expressAnswered i rest =>
    have hi : d₀.Asks i := hproper.2 i List.mem_cons_self
    simpa [Task.Proper] using ⟨⟨hi, fun j hj => hproper.tail hj⟩, hi⟩
  | arrive now c i =>
    have hasks : ∀ j, .express j ∈ (d.arrive now c i).actions → d₀.Asks j := fun j hj =>
      hsame.asks_iff.1 (Discovery.asks_of_arrive hd hj)
    cases (d.arrive now c i).delivers <;> simpa [Task.Proper] using hasks
  | timeout now i =>
    simpa [Task.Proper] using fun j hj => hsame.asks_iff.1 (Discovery.asks_of_timeout hj)
  | refreshNext ids now =>
    have hids : ∀ id ∈ ids, id = 0 := fun id hid => hproper id (List.mem_cons_of_mem _ hid)
    have hasks : ∀ j, .express j ∈ (d.refresh now).2 → d₀.Asks j := fun j hj =>
      hsame.asks_iff.1 (Discovery.asks_of_refresh hj)
    simpa [Task.Proper] using ⟨hasks, hids⟩
  | publish | publishAnswers | publishMany | expire | publishedAll | publishNext
  | publishNextAnswers | timedOutAll | timeoutNext => cases hproper
  | _ => simp [Task.Proper]

end Steps

namespace Session

variable {o : ListenerId} {s s' : Session} {d₀ d : Discovery} {vs : List Version}

/-- What holds at every moment of a run that began with `d₀`. -/
structure Guarded (o : ListenerId) (d₀ : Discovery) (vs : List Version) (s : Session)
    (d : Discovery) : Prop where
  solo : Solo o s d
  sound : d.Sound
  same : d₀.SameTask d
  issued : ∀ i ∈ s.issued, d₀.Asks i
  proper : ∀ task ∈ s.agenda, task.Proper d₀
  excluded : ∀ v, d.isExcluded v = true ↔ d₀.isExcluded v = true ∨ v ∈ vs
  account : Account d₀ d (s.handed ++ handOvers s.agenda)

namespace Guarded

theorem step (h : Guarded o d₀ vs s d) : ∃ d', Guarded o d₀ (s.taking ++ vs) s.step d' := by
  cases hagenda : s.agenda with
  | nil =>
    have htaking : s.taking = [] := by simp [taking, hagenda]
    have hstep : s.step = s := by rw [Session.step, hagenda]
    rw [htaking, hstep]
    exact ⟨d, h⟩
  | cons task rest =>
    have htaking : s.taking = task.takes d := by
      simp [taking, hagenda, h.solo.discovery?_eq]
    have hproper : task.Proper d₀ := h.proper task (by simp [hagenda])
    obtain ⟨e, hdoes, hleads⟩ := h.solo.step_does hagenda hproper.isLocal
    obtain ⟨htasks, hexpressed⟩ := hdoes.proper h.sound h.same h.issued hproper
    have hsame := hdoes.sameTask h.sound
    rw [htaking]
    refine ⟨e.discovery, hleads.solo, hdoes.sound h.sound, h.same.trans hsame, ?_, ?_, ?_, ?_⟩
    · intro i hi
      rw [hleads.issued, List.mem_append] at hi
      exact hi.elim (h.issued i) (hexpressed i)
    · intro t ht
      rw [hleads.agenda, List.mem_append] at ht
      exact ht.elim (htasks t) fun ht => h.proper t (by simp [hagenda, ht])
    · intro v
      rw [hdoes.isExcluded_iff h.sound, h.excluded, List.mem_append, or_assoc,
        or_comm (a := v ∈ vs)]
    · have haccount := h.account
      rw [hagenda] at haccount
      rw [hleads.handed, hleads.agenda]
      refine haccount.does hdoes h.sound h.same (fun v hv => (h.excluded v).2 (.inl hv)) ?_
      rintro c i rfl
      exact hproper.2

theorem intervene (h : Guarded o d₀ vs s d) (hs : s.Intervenes s') : Guarded o d₀ vs s' d := by
  cases hs with
  | call hc =>
    refine ⟨⟨h.solo.retrievals, h.solo.passive⟩, h.sound, h.same, h.issued, ?_, h.excluded, ?_⟩
    · intro t ht
      simp only [push, List.cons_append, List.nil_append, List.mem_cons] at ht
      rcases ht with rfl | ht
      · exact hc
      · exact h.proper t ht
    · simpa [push, handed, Task.handOver?] using h.account
  | transport t =>
    exact ⟨⟨h.solo.retrievals, h.solo.passive⟩, h.sound, h.same, h.issued, h.proper, h.excluded,
      h.account⟩
  | interleave hperm =>
    refine ⟨⟨h.solo.retrievals, h.solo.passive⟩, h.sound, h.same, h.issued, ?_, h.excluded, ?_⟩
    · exact fun t ht => h.proper t (hperm.mem_iff.2 ht)
    · exact h.account.perm ((hperm.filterMap _).append_left _)

theorem handed_step (h : Guarded o d₀ vs s d) (hrun : d.isRunning = false) :
    s.step.handed = s.handed := by
  cases hagenda : s.agenda with
  | nil => rw [Session.step, hagenda]
  | cons task rest =>
    have hproper : task.Proper d₀ := h.proper task (by simp [hagenda])
    obtain ⟨e, hdoes, hleads⟩ := h.solo.step_does hagenda hproper.isLocal
    rw [hleads.handed, hdoes.handed_nil hrun, List.nil_append]

theorem opening (h : d₀.Sound) (outcomes : List Outcome) (t : Transport Handler)
    (clock : Nat → Time) : Guarded o d₀ [] (.opening d₀ o outcomes t clock) d₀ where
  solo := solo_opening d₀ o outcomes t clock
  sound := h
  same := .refl d₀
  issued := by simp [Session.opening]
  proper := by simp [Session.opening]
  excluded := by simp
  account := .nil

theorem versions (h : Guarded o d₀ vs s d) : ∃ us : List Version, us.Nodup ∧
    s.handed.map (fun c => Version.ofNameAt c.name d₀.basename.length) = us.map .ok ∧
    ∀ u ∈ us, u ∈ vs ∧ d₀.isExcluded u = false ∧ d₀.Wants u := by
  have haccount := h.account.sublist (List.sublist_append_left _ _)
  obtain ⟨us, hnodup, hus, hmem⟩ := haccount.versions
  refine ⟨us, hnodup, hus, fun u hu => ?_⟩
  obtain ⟨c, hc, hname⟩ := (hmem u).1 hu
  obtain ⟨v, hv, hex, hnew, hwants⟩ := haccount.named c hc
  have heq : v = u := by
    rw [← Except.ok.injEq (ε := VersionFault), ← hv.ofNameAt_eq, hname.ofNameAt_eq]
  subst heq
  refine ⟨((h.excluded v).1 hex).resolve_left ?_, hnew, hwants⟩
  rw [hnew]
  exact Bool.false_ne_true

end Guarded

theorem Run.guarded {outcomes : List Outcome} {t : Transport Handler} {clock : Nat → Time}
    (hd : d₀.Sound) (h : Run (opening d₀ o outcomes t clock) vs s) :
    ∃ d, Guarded o d₀ vs s d := by
  induction h with
  | refl => exact ⟨d₀, .opening hd outcomes t clock⟩
  | step _ ih =>
    obtain ⟨d, hguarded⟩ := ih
    exact hguarded.step
  | intervene _ hs ih =>
    obtain ⟨d, hguarded⟩ := ih
    exact ⟨d, hguarded.intervene hs⟩

theorem Guarded.owner_safe {basename : Name} {config : Config} {trust : Trust}
    {exclusions : List Version} {floor : Option Version} (hvalid : config.Valid)
    (hrange : ∀ v ∈ exclusions, v.InRange)
    (h : Guarded o (.create basename config trust exclusions floor) vs s d) :
    Safe basename exclusions floor vs s d := by
  have hinitial : ∀ v, (Discovery.create basename config trust exclusions floor).isExcluded v =
      true ↔ v ∈ exclusions := fun v => Discovery.isExcluded_create hvalid hrange
  have hexcluded : ∀ v, d.isExcluded v = true ↔ v ∈ exclusions ∨ v ∈ vs := fun v => by
    rw [h.excluded, hinitial]
  refine ⟨?_, ?_, ?_, ?_, hexcluded, ?_⟩
  · obtain ⟨us, hnodup, hus, hall⟩ := h.versions
    refine ⟨us, hnodup, hus, fun u hu => ?_⟩
    obtain ⟨hmem, hnew, hwants⟩ := hall u hu
    refine ⟨hmem, ?_, hwants⟩
    rw [← hinitial, hnew]
    exact Bool.false_ne_true
  · intro c hc
    obtain ⟨v, ⟨hr, tail, hname⟩, -⟩ := h.account.named c (List.mem_append_left _ hc)
    exact ⟨v, tail, hr, hname⟩
  · intro hne
    cases hrun : d.isRunning with
    | true => rfl
    | false => exact absurd (h.handed_step hrun) hne
  · rintro s' (_ | _ | _) <;> rfl
  · rintro s' d' hs hd' v hv
    rcases hs with rfl | hs
    · obtain ⟨e, he⟩ := h.step
      rw [he.solo.discovery?_eq, Option.some.injEq] at hd'
      subst hd'
      rw [he.excluded, List.mem_append]
      exact ((h.excluded v).1 hv).imp_right .inr
    · have hs' := (h.intervene hs).solo
      rw [hs'.discovery?_eq, Option.some.injEq] at hd'
      exact hd' ▸ hv

/-- Whatever the surroundings do, the owner is handed a version once at most, of content named under
the base name, and neither an exclusion nor one below the floor; what is excluded is what was to
begin with and what has been absorbed since. -/
theorem Run.safe {basename : Name} {config : Config} {trust : Trust} {exclusions : List Version}
    {floor : Option Version} {o : ListenerId} {outcomes : List Outcome} {t : Transport Handler}
    {clock : Nat → Time} {absorbed : List Version} {s : Session} (hvalid : config.Valid)
    (hrange : ∀ v ∈ exclusions, v.InRange)
    (h : Run (opening (.create basename config trust exclusions floor) o outcomes t clock)
      absorbed s) :
    ∃ d, s.discovery? = some d ∧ Safe basename exclusions floor absorbed s d := by
  obtain ⟨d, hguarded⟩ := h.guarded (Discovery.create_sound hvalid hrange)
  exact ⟨d, hguarded.solo.discovery?_eq, hguarded.owner_safe hvalid hrange⟩

def sampleOpening : Session :=
  opening (.create ⟨[[1]]⟩ {} .exactKey [⟨5⟩] none) "owner" [] {} fun _ => 0

def sampleContent (ticks : UInt64) : Content :=
  .unsigned ⟨[[1], Version.toComponent ⟨ticks⟩, [0]]⟩ []

theorem safe_sample :
    ∃ absorbed s, Run sampleOpening absorbed s ∧ absorbed = [⟨7⟩] ∧
      s.handed = [sampleContent 7] ∧
      ∃ d, s.discovery? = some d ∧ Safe ⟨[[1]]⟩ [⟨5⟩] none absorbed s d := by
  have hvalid : Config.Valid {} := rfl
  have hcall : Command.IsCall (.startDiscovery .first) := True.intro
  have h₀ : Run sampleOpening [] sampleOpening := .refl
  have h₁ := h₀.intervene (.transport { store := [sampleContent 7] })
  have h₂ := h₁.intervene (.call hcall)
  have h₃ := h₂.step.step.step.step.step.step.step
  exact ⟨_, _, h₃, by cbv, by cbv, Run.safe hvalid (by decide) h₃⟩

end Session

end NamedContent
