import NamedContent.Proofs.Accounts
import NamedContent.Proofs.BooksProgress

/-! A ledger of Interests: the books between a discovery and a transport that nobody else uses, that
refuses nothing, while nobody stops the discovery. Then every slot has an Interest outstanding, and
content is held only if no Interest outstanding asks for its version, but for those whose answers
are on their way. -/

namespace NamedContent

/-- The commands of one who uses the discovery and its transport and never stops. -/
def Command.IsUse : Command → Prop
  | .startDiscovery .first => True
  | .refresh .first _ => True
  | .publish _ => True
  | .publishAll _ => True
  | .expireAll => True
  | _ => False

theorem Command.IsUse.isLocal {c : Command} (h : c.IsUse) : c.Local := by
  unfold IsUse at h
  split at h <;> first | exact True.intro | cases h

theorem Command.IsUse.manages {c : Command} (h : c.IsUse) : c.Manages := by
  unfold IsUse at h
  split at h <;> first | exact True.intro | cases h

namespace Task

def Uses (d : Discovery) : Task → Prop
  | .command c => c.IsUse
  | .record _ => False
  | .arrive h _ _ => h = .retrieval 0
  | .timeout h _ => h = .retrieval 0
  | .timeoutAll ps _ => ∀ p ∈ ps, p.handler = .retrieval 0
  | .handOver _ _ _ => d.isRunning = true
  | _ => True

variable {d d' : Discovery} {t : Transport Handler} {task : Task}

theorem Uses.mono (h : task.Uses d) (hrun : d.isRunning = true → d'.isRunning = true) :
    task.Uses d' := by
  cases task <;> first | exact h | exact hrun h

theorem Nested.isLocal (h : task.Nested d t) (huses : task.Uses d) : task.Local := by
  unfold Nested at h
  split at h
  · subst h
    cases huses
  · cases huses
  · exact True.intro
  · exact h.1
  · exact h
  · exact huses
  · exact huses
  · exact h
  · cases h

theorem Outermost.isLocal (h : task.Outermost) (huses : task.Uses d) : task.Local := by
  unfold Outermost at h
  split at h
  · exact Command.IsUse.isLocal huses
  · exact True.intro
  · exact True.intro
  · exact True.intro
  · exact h
  · cases h

end Task

namespace Transport

/-- The transport refuses nothing, and nobody but the discovery waits at it. -/
structure Own (t : Transport Handler) : Prop where
  ready : t.refusals = 0
  alone : ∀ p ∈ t.pending, p.handler = .retrieval 0

variable {t t' : Transport Handler} {i : Interest} {c : Content} {r : Expression}
  {p? : Option (Pending Handler)}

theorem Own.cancel (h : t.Own) (i : Interest) : (t.cancel i (.retrieval 0)).Own := by
  obtain ⟨-, hready, hpending⟩ := t.cancel_frame i (.retrieval 0)
  exact ⟨hready.trans h.ready, fun p hp => h.alone p (hpending.subset hp)⟩

theorem Own.express (h : t.Own) (ht : t.express i (.retrieval 0) = (t', r)) : t'.Own := by
  cases r with
  | refused => exact absurd ht (express_refused h.ready)
  | waiting =>
    obtain ⟨-, hready, hpending, -⟩ := express_waiting h.ready ht
    refine ⟨hready, fun p hp => ?_⟩
    rw [hpending, List.mem_append, List.mem_singleton] at hp
    rcases hp with hp | rfl
    · exact h.alone p hp
    · rfl
  | answered c =>
    obtain ⟨-, hready, hpending, -⟩ := express_answered h.ready ht
    exact ⟨hready, hpending ▸ h.alone⟩

theorem Own.publish (h : t.Own) (ht : t.publish c = (t', p?)) : t'.Own := by
  cases p? with
  | none =>
    obtain ⟨-, hready, hpending, -⟩ := publish_unasked ht
    exact ⟨hready.trans h.ready, hpending ▸ h.alone⟩
  | some p =>
    obtain ⟨-, hready, hperm, -⟩ := publish_answers ht
    exact ⟨hready.trans h.ready, fun q hq => h.alone q (hperm.mem_iff.2 (.tail p hq))⟩

theorem Own.expireAll (h : t.Own) : t.expireAll.1.Own :=
  ⟨h.ready, fun _ hp => by cases hp⟩

theorem Own.mem_waiting (h : t.Own) (hi : i ∈ t.waiting) : i ∈ t.heldFor (.retrieval 0) := by
  obtain ⟨p, hp, rfl⟩ := List.mem_map.1 hi
  exact List.mem_map_of_mem (List.mem_filter.2 ⟨hp, beq_iff_eq.2 (h.alone p hp)⟩)

theorem waiting_of_heldFor (hi : i ∈ t.heldFor (.retrieval 0)) : i ∈ t.waiting := by
  obtain ⟨p, hp, rfl⟩ := List.mem_map.1 hi
  exact List.mem_map_of_mem (List.mem_of_mem_filter hp)

end Transport

structure Ledger (d₀ d : Discovery) (t : Transport Handler) (agenda : List Task) : Prop
    extends Books d t agenda where
  same : d₀.SameTask d
  unstopped : d.phase ≠ .stopped
  live : d.isRunning = true → ∀ s ∈ d.slots, s.outstanding ≠ none
  own : t.Own
  uses : ∀ task ∈ agenda, task.Uses d
  covered : ∀ c ∈ t.store, ∀ i ∈ d.outstanding, ∀ v, d.Carries c i v → i ∈ owed agenda
  grounded : ∀ v, d.isExcluded v = true →
    d₀.isExcluded v = true ∨ ∃ c ∈ t.store, d₀.Matches c v
  kept : ∀ v, d₀.isExcluded v = true → d.isExcluded v = true

namespace Ledger

open Discovery (Alike)

variable {d₀ d d' : Discovery} {t t' : Transport Handler} {agenda rest tasks : List Task}
  {task : Task} {k : UInt64} {i : Interest} {c : Content} {now : Time}

theorem isLocal (h : Ledger d₀ d t (task :: rest)) : task.Local := by
  have huses := h.uses task List.mem_cons_self
  cases h.layered with
  | outermost houter => exact houter.isLocal huses
  | nested hnested => exact hnested.isLocal huses

theorem mem_outstanding (h : Ledger d₀ d t (task :: rest)) (hi : i ∈ task.owed) :
    i ∈ d.outstanding := h.outstanding_of_owed h.unstopped hi

theorem additional (h : Ledger d₀ d t agenda) (hk : d₀.config.additional = some k) :
    d.config.additional = some k := by
  rw [h.same.config]
  exact hk

theorem turn (h : Ledger d₀ d t (task :: rest)) (hbooks : Books d' t' (tasks ++ rest))
    (ha : Alike d d') (hown : t'.Own) (hstore : t.store ⊆ t'.store)
    (huses : ∀ task ∈ tasks, task.Uses d')
    (hcovered : ∀ c ∈ t'.store, ∀ i ∈ d.outstanding, ∀ v, d.Carries c i v →
      i ∈ owed (tasks ++ rest)) : Ledger d₀ d' t' (tasks ++ rest) where
  toBooks := hbooks
  same := h.same.trans ha.same
  unstopped := by
    rw [ha.phase]
    exact h.unstopped
  live hrun := by
    rw [Discovery.isRunning, ha.phase] at hrun
    exact ha.live (h.live hrun)
  own := hown
  uses := by
    refine List.forall_mem_append.2 ⟨huses, fun task htask => ?_⟩
    refine (h.uses task (List.mem_cons_of_mem _ htask)).mono ?_
    rw [Discovery.isRunning, Discovery.isRunning, ha.phase]
    exact id
  covered c hc i hi v hv := by
    rw [ha.outstanding] at hi
    rw [ha.same.carries_iff] at hv
    exact hcovered c hc i hi v hv
  grounded v hv := by
    rw [ha.excluded] at hv
    refine (h.grounded v hv).imp_right ?_
    rintro ⟨c, hc, hmatches⟩
    exact ⟨c, hstore hc, hmatches⟩
  kept v hv := by
    rw [ha.excluded]
    exact h.kept v hv

theorem move (h : Ledger d₀ d t (task :: rest)) (hbooks : Books d' t' (tasks ++ rest))
    (ha : Alike d d') (hown : t'.Own) (hstore : t'.store = t.store)
    (huses : ∀ task ∈ tasks, task.Uses d') (howed : task.owed ⊆ owed tasks) :
    Ledger d₀ d' t' (tasks ++ rest) := by
  refine h.turn hbooks ha hown (hstore ▸ List.Subset.refl _) huses fun c hc i hi v hv => ?_
  rw [hstore] at hc
  have hmem := h.covered c hc i hi v hv
  rw [owed_cons, List.mem_append] at hmem
  rw [owed_append, List.mem_append]
  exact hmem.imp_left fun hi => howed hi

theorem express_waits {actions : List Action} {anyRefused : Bool}
    (hk : d₀.config.additional = some k) (htwo : 2 ≤ k.toNat)
    (h : Ledger d₀ d t (.perform 0 (.express i :: actions) anyRefused :: rest))
    (ht : t.express i (.retrieval 0) = (t', .waiting))
    (hbooks : Books d t' ([.settle 0 i, .perform 0 actions anyRefused] ++ rest)) :
    Ledger d₀ d t' ([.settle 0 i, .perform 0 actions anyRefused] ++ rest) := by
  obtain ⟨hstore, -, -, hnone⟩ := Transport.express_waiting h.own.ready ht
  have hi : i ∈ d.outstanding := h.mem_outstanding List.mem_cons_self
  refine h.turn hbooks (.refl h.sound) (h.own.express ht) (hstore ▸ List.Subset.refl _)
    (by simp [Task.Uses]) fun c hc j hj v hv => ?_
  rw [hstore] at hc
  refine (List.mem_cons.1 (h.covered c hc j hj v hv)).resolve_left ?_
  rintro rfl
  have hacc := h.sound.accepts_of_accepts (h.additional hk) htwo hi .exactKey hv.1
  rw [hnone c hc] at hacc
  cases hacc

section Arrive

variable {x : Component} {pre post : List Slot} {s : Slot}

theorem answered (hk : d₀.config.additional = some k) (htwo : 2 ≤ k.toNat)
    (h : Ledger d₀ d t (.arrive (.retrieval 0) c i :: rest)) :
    ∃ pre s post x, d.slots = pre ++ s :: post ∧ s.outstanding = some i ∧
      d.slotAwaiting? i = some pre.length ∧ i.accepts d.trust c = true ∧
      c.name.component? d.basename.length = some x := by
  have hi : i ∈ d.outstanding := h.mem_outstanding List.mem_cons_self
  have hacc := h.arriving.2
  have hacc' := h.sound.accepts_of_accepts (h.additional hk) htwo hi d.trust hacc
  obtain ⟨x, hx⟩ := h.sound.exists_component (h.additional hk) htwo hi hacc
  obtain ⟨pre, s, post, hslots, hs, hask⟩ := Discovery.exists_awaiting hi
  exact ⟨pre, s, post, x, hslots, hs, hask, hacc', hx⟩

/-- What another slot asks for is not what the slot answered asked for, so an Interest of that slot
that content held carries a version for is due besides. -/
theorem owed_of_other (h : Ledger d₀ d t (.arrive (.retrieval 0) c i :: rest))
    (hslots : d.slots = pre ++ s :: post) (hs : s.outstanding = some i) {b : Content}
    (hb : b ∈ t.store) {u : Slot} (hu : u ∈ pre ++ post) {j : Interest}
    (hout : u.outstanding = some j) {v : Version} (hv : d.Carries b j v) : j ∈ owed rest := by
  have hmem : u ∈ d.slots := by
    rw [List.mem_append] at hu
    rw [hslots, List.mem_append, List.mem_cons]
    exact hu.imp_right .inr
  have hdue := h.covered b hb j (Discovery.mem_outstanding.2 ⟨u, hmem, hout⟩) v hv
  refine (List.mem_cons.1 hdue).resolve_left ?_
  rintro rfl
  exact h.sound.not_carries_of_carries hslots hs hv hu hout hv

theorem arrive (hk : d₀.config.additional = some k) (htwo : 2 ≤ k.toNat)
    (h : Ledger d₀ d t (.arrive (.retrieval 0) c i :: rest))
    (hbooks : Books (d.arrive now c i).discovery t
      (.perform 0 (d.arrive now c i).actions false ::
        (if (d.arrive now c i).delivers then [.handOver 0 c i] else []) ++ rest)) :
    Ledger d₀ (d.arrive now c i).discovery t
      (.perform 0 (d.arrive now c i).actions false ::
        (if (d.arrive now c i).delivers then [.handOver 0 c i] else []) ++ rest) := by
  obtain ⟨pre, s, post, x, hslots, hs, hask, hacc', hx⟩ := h.answered hk htwo
  obtain ⟨news, hslots', hactions, hnews⟩ := h.sound.arrive_answer now hslots hs hask hacc' hx
  obtain ⟨hsame, hphase⟩ := @Discovery.arrive_frame d now c i h.sound
  have hmem : s ∈ d.slots := by simp [hslots]
  have hrun : d.isRunning = true :=
    h.sound.isRunning_of_outstanding (h.mem_outstanding List.mem_cons_self)
  have hrun' : (d.arrive now c i).discovery.isRunning = true := by
    rw [Discovery.isRunning, hphase]
    exact hrun
  refine ⟨hbooks, h.same.trans hsame, ?_, ?_, h.own, ?_, ?_, ?_, ?_⟩
  · rw [hphase]
    exact h.unstopped
  · intro _ u hu
    rw [hslots', List.append_assoc, List.mem_append, List.mem_append] at hu
    rcases hu with hu | hu | hu
    · exact h.live hrun u (by simp [hslots, hu])
    · exact hnews u hu
    · exact h.live hrun u (by simp [hslots, hu])
  · refine List.forall_mem_cons.2 ⟨True.intro, List.forall_mem_append.2 ⟨?_, fun task htask =>
      (h.uses task (List.mem_cons_of_mem _ htask)).mono fun _ => hrun'⟩⟩
    split
    · exact List.forall_mem_singleton.2 hrun'
    · exact fun _ htask => by cases htask
  · intro b hb j hj v hv
    rw [hsame.carries_iff] at hv
    rw [Discovery.outstanding_append hslots', List.filterMap_append, List.mem_append,
      List.mem_append] at hj
    rw [List.cons_append, owed_cons, owed_append, List.mem_append, List.mem_append]
    rcases hj with (hj | hj) | hj
    · obtain ⟨u, hu, hout⟩ := List.mem_filterMap.1 hj
      exact .inr (.inr (h.owed_of_other hslots hs hb (List.mem_append_left _ hu) hout hv))
    · rw [hactions, Task.owed, express?_expressions]
      exact .inl hj
    · obtain ⟨u, hu, hout⟩ := List.mem_filterMap.1 hj
      exact .inr (.inr (h.owed_of_other hslots hs hb (List.mem_append_right _ hu) hout hv))
  · intro v hv
    rcases (Discovery.isExcluded_arrive_iff h.sound v).1 hv with hv | ⟨-, hv⟩
    · exact h.grounded v hv
    · have hmatches := ((h.sound.carries_iff hmem hs).1 hv).1
      rw [h.same.matches_iff] at hmatches
      exact .inr ⟨c, h.arriving.1, hmatches⟩
  · exact fun v hv => (Discovery.isExcluded_arrive_iff h.sound v).2 (.inl (h.kept v hv))

end Arrive

section Calls

variable {task' : Task}

theorem start (h : Ledger d₀ d t (.command (.startDiscovery .first) :: rest))
    (hbooks : Books (d.start now).1 t ([.perform 0 (d.start now).2 false] ++ rest)) :
    Ledger d₀ (d.start now).1 t ([.perform 0 (d.start now).2 false] ++ rest) := by
  by_cases hphase : d.phase = .created
  · have hexcluded := Discovery.isExcluded_congr (@Discovery.partitions_start d now)
    have hlive := fun t => @Discovery.Sound.started d now h.sound hphase t
    have hsame := Discovery.start_frame d now
    have hrun := @Discovery.start_isRunning d now h.unstopped
    have huses : ∀ task ∈ rest, task.Uses (d.start now).1 := fun task htask =>
      (h.uses task (List.mem_cons_of_mem _ htask)).mono fun _ => hrun
    rw [Discovery.start_eq hphase] at hexcluded hlive hsame hbooks huses ⊢
    refine ⟨hbooks, h.same.trans hsame, by simp, ?_, h.own,
      List.forall_mem_cons.2 ⟨True.intro, huses⟩, ?_, ?_, ?_⟩
    · intro _ u hu
      obtain ⟨i, since, hi, -⟩ := hlive u hu
      simp [hi]
    · intro b _ j hj _ _
      rw [owed_append, owed_expressions, List.mem_append]
      exact .inl hj
    · intro v hv
      rw [hexcluded] at hv
      exact h.grounded v hv
    · intro v hv
      rw [hexcluded]
      exact h.kept v hv
  · have hdeaf : d.start now = (d, []) := by rw [Discovery.start, if_neg hphase]
    rw [hdeaf] at hbooks ⊢
    exact h.move hbooks (.refl h.sound) h.own rfl (by simp [Task.Uses]) (List.nil_subset _)

theorem refresh {ids : List Nat} {n m : Nat}
    (h : Ledger d₀ d t (.refreshAll (0 :: ids) now n :: rest))
    (hbooks : Books (d.refresh now).1 t
      ([.perform 0 (d.refresh now).2 false, .refreshAll ids now m] ++ rest)) :
    Ledger d₀ (d.refresh now).1 t
      ([.perform 0 (d.refresh now).2 false, .refreshAll ids now m] ++ rest) := by
  have ha : Alike d (d.refresh now).1 := by
    by_cases hrun : d.isRunning = true
    · exact Discovery.Alike.refresh now h.sound hrun (h.live hrun)
    · rw [Discovery.refresh, if_neg hrun]
      exact .refl h.sound
  exact h.move hbooks ha h.own rfl (by simp [Task.Uses]) (List.nil_subset _)

section Publish

variable (hk : d₀.config.additional = some k) (htwo : 2 ≤ k.toNat)
  (h : Ledger d₀ d t (task :: rest)) (howed : task.owed = []) (huses : task'.Uses d)

include hk htwo h howed huses

theorem publish_unasked (ht : t.publish c = (t', none)) (hbooks : Books d t' ([task'] ++ rest)) :
    Ledger d₀ d t' ([task'] ++ rest) := by
  obtain ⟨hstore, -, -, hnone⟩ := Transport.publish_unasked ht
  have hsubset : t.store ⊆ t'.store := by
    rw [hstore]
    exact List.subset_append_left _ _
  refine h.turn hbooks (.refl h.sound) (h.own.publish ht) hsubset
    (List.forall_mem_singleton.2 huses) fun b hb j hj v hv => ?_
  rw [hstore, List.mem_append, List.mem_singleton] at hb
  rw [owed_append, List.mem_append]
  refine .inr ?_
  rcases hb with hb | rfl
  · simpa [howed] using h.covered b hb j hj v hv
  · rcases h.held_or_owed h.unstopped hj with hheld | hmem
    · have hacc := h.sound.accepts_of_accepts (h.additional hk) htwo hj .exactKey hv.1
      rw [hnone j (Transport.waiting_of_heldFor hheld)] at hacc
      cases hacc
    · simpa [howed] using hmem

theorem publish_answers {p : Pending Handler} (ht : t.publish c = (t', some p))
    (hbooks : Books d t' ([.arrive p.handler c p.interest, task'] ++ rest)) :
    Ledger d₀ d t' ([.arrive p.handler c p.interest, task'] ++ rest) := by
  obtain ⟨hstore, -, hperm, hacc⟩ := Transport.publish_answers ht
  have hsubset : t.store ⊆ t'.store := by
    rw [hstore]
    exact List.subset_append_left _ _
  have hp : p ∈ t.pending := hperm.mem_iff.2 List.mem_cons_self
  have hmine : p.handler = .retrieval 0 := h.own.alone p hp
  refine h.turn hbooks (.refl h.sound) (h.own.publish ht) hsubset
    (List.forall_mem_cons.2 ⟨hmine, List.forall_mem_singleton.2 huses⟩) fun b hb j hj v hv => ?_
  rw [hstore, List.mem_append, List.mem_singleton] at hb
  rcases hb with hb | rfl
  · rw [owed_append, List.mem_append]
    exact .inr (by simpa [howed] using h.covered b hb j hj v hv)
  · have hp' := h.outstanding_of_held h.unstopped (h.own.mem_waiting (List.mem_map_of_mem hp))
    have haccepts := h.sound.accepts_of_accepts (h.additional hk) htwo hp' d.trust hacc
    rw [h.sound.carries_unique hj hp' hv ⟨haccepts, hv.2⟩]
    simp [Task.owed, hmine]

end Publish

end Calls

/-- Every step keeps the ledger. -/
theorem does {issued : List Interest} {e : Effect} (hk : d₀.config.additional = some k)
    (htwo : 2 ≤ k.toNat) (h : Ledger d₀ d t (task :: rest)) (hdoes : Does issued d t task e) :
    Ledger d₀ e.discovery e.transport (e.tasks ++ rest) := by
  have hbooks := h.toBooks.does hdoes
  have huses := h.uses task List.mem_cons_self
  have hself := Alike.refl h.sound
  have hnone : ∀ task ∈ ([] : List Task), task.Uses d := by simp
  cases hdoes with
  | start now => exact h.start hbooks
  | refresh | publishMany =>
    exact h.move hbooks hself h.own rfl (by simp [Task.Uses]) (List.nil_subset _)
  | publish ht => exact h.publish_unasked hk htwo rfl True.intro ht hbooks
  | publishAnswers ht => exact h.publish_answers hk htwo rfl (by simp [Task.Uses]) ht hbooks
  | expire =>
    exact h.move hbooks hself h.own.expireAll rfl (List.forall_mem_singleton.2 h.own.alone)
      (List.nil_subset _)
  | answer | performed | handOver | handOverDropped | publishedAll | timedOutAll | refreshedAll =>
    exact h.move hbooks hself h.own rfl hnone (List.nil_subset _)
  | cancel i actions =>
    exact h.move hbooks (.cancelled h.sound) (h.own.cancel i) (t.cancel_frame i _).1
      (by simp [Task.Uses]) (List.subset_append_left _ _)
  | expressRefused actions anyRefused ht =>
    exact absurd ht (Transport.express_refused h.own.ready)
  | expressWaits actions anyRefused ht => exact h.express_waits hk htwo ht hbooks
  | expressAnswered actions anyRefused ht =>
    exact h.move hbooks hself (h.own.express ht) (Transport.express_frame ht).1
      (by simp [Task.Uses]) (by simp [Task.owed, Action.express?])
  | settleKeeps =>
    exact h.move hbooks (.settled h.sound) h.own rfl (by simp) (List.nil_subset _)
  | settleCancels =>
    exact h.move hbooks (.settled h.sound) (h.own.cancel _) (t.cancel_frame _ _).1 (by simp)
      (List.nil_subset _)
  | arrive now c i => exact h.arrive hk htwo hbooks
  | timeout now i =>
    obtain ⟨ha, hactions⟩ := Discovery.timeout_asked now h.sound
      (h.mem_outstanding List.mem_cons_self)
    exact h.move hbooks ha h.own rfl (by simp [Task.Uses])
      (by simp [Task.owed, hactions, Action.express?])
  | publishNext cs answered ht => exact h.publish_unasked hk htwo rfl True.intro ht hbooks
  | publishNextAnswers cs answered ht =>
    exact h.publish_answers hk htwo rfl (by simp [Task.Uses]) ht hbooks
  | timeoutNext p ps total =>
    obtain ⟨hmine, hrest⟩ := List.forall_mem_cons.1 huses
    exact h.move hbooks hself h.own rfl
      (List.forall_mem_cons.2 ⟨hmine, List.forall_mem_singleton.2 hrest⟩)
      (by simp [Task.owed, hmine])
  | refreshNext ids now => exact h.refresh hbooks
  | _ => cases huses

end Ledger

end NamedContent
