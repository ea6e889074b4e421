import NamedContent.Proofs.Books

/-! Every step keeps the books. Interests move between what is held and what is yet to be expressed
or answered, with what is outstanding; a stop moves all that is outstanding to what is yet to be
withdrawn. -/

namespace NamedContent

namespace Books

open Discovery (Alike)

variable {d d' : Discovery} {t t' : Transport Handler} {task : Task} {agenda tasks rest : List Task}
  {i : Interest} {actions : List Action} {anyRefused : Bool} {now : Time} {c : Content}

theorem skip (h : Books d t (task :: rest)) (ha : Alike d d')
    (hlayered : Layered d' t (tasks ++ rest)) (hcancels : cancels tasks = task.cancels)
    (howed : owed tasks = task.owed) (hwithdrawals : withdrawals tasks = task.withdrawals) :
    Books d' t (tasks ++ rest) := by
  refine h.turn ha.sound ha.phase hlayered (fun _ j x y => ?_) (fun _ j x => ?_)
  · rw [ha.outstanding, hcancels, howed]
    exact fun hbalance hle => ⟨hbalance, hle⟩
  · rw [hwithdrawals]
    exact id

theorem cancel (h : Books d t (.perform 0 (.cancel i :: actions) anyRefused :: rest))
    (hpaired : d.phase ≠ .stopped → Paired (.cancel i :: actions)) (hrest : Layered d t rest) :
    Books d.cancelled (t.cancel i (.retrieval 0))
      ([Task.perform 0 actions anyRefused] ++ rest) := by
  have hstore : t.store ⊆ (t.cancel i (.retrieval 0)).store := by
    rw [(t.cancel_frame i (.retrieval 0)).1]
    exact List.Subset.refl _
  refine h.turn (Discovery.cancelled_sound h.sound) rfl
    (.nested ⟨rfl, fun hopen => (hpaired hopen).2⟩ (hrest.mono id hstore)) ?_ ?_
  · intro _ j x y
    rw [t.count_heldFor_cancel]
    simp only [cancels_cons, cancels_nil, owed_cons, owed_nil, Task.cancels, Task.owed,
      List.filterMap_cons, Action.cancel?, Action.express?, List.append_nil, List.count_cons,
      List.count_nil]
    show d.outstanding.count j + _ = _ → _ → d.outstanding.count j + _ = _ ∧ _
    omega
  · intro _ j x
    rw [t.count_heldFor_cancel]
    simp only [withdrawals_cons, withdrawals_nil, Task.withdrawals, List.filterMap_cons,
      Action.cancel?, List.append_nil, List.count_cons, List.count_nil]
    omega

section Express

variable (hrest : Layered d t rest)
  (h : Books d t (.perform 0 (.express i :: actions) anyRefused :: rest))
  (hpaired : d.phase ≠ .stopped → Paired actions)

include h hrest hpaired

theorem express_refused (ht : t.express i (.retrieval 0) = (t', .refused)) :
    Books (d.refused i) t' ([Task.perform 0 actions true] ++ rest) := by
  obtain ⟨hstore, hpending, -⟩ := Transport.express_frame ht
  have hheld := Transport.count_heldFor_of_pending (hpending.trans (List.append_nil _))
    (.retrieval 0)
  obtain ⟨-, hphase⟩ := Discovery.refused_frame d i
  refine h.turn (Discovery.refused_sound h.sound) hphase (.nested ⟨rfl, ?_⟩ (hrest.mono ?_ ?_))
    ?_ ?_
  · rw [hphase]
    exact hpaired
  · rw [hphase]
    exact id
  · rw [hstore]
    exact List.Subset.refl _
  · intro _ j x y
    rw [hheld, Discovery.count_outstanding_refused]
    simp only [cancels_cons, cancels_nil, owed_cons, owed_nil, Task.cancels, Task.owed,
      List.filterMap_cons, Action.cancel?, Action.express?, List.append_nil, List.count_cons,
      List.count_nil]
    omega
  · intro _ j x
    rw [hheld]
    simp only [withdrawals_cons, withdrawals_nil, Task.withdrawals, List.filterMap_cons,
      Action.cancel?, List.append_nil]
    exact id

theorem express_waits (ht : t.express i (.retrieval 0) = (t', .waiting)) :
    Books d t' ([Task.settle 0 i, .perform 0 actions anyRefused] ++ rest) := by
  obtain ⟨hstore, -⟩ := Transport.express_frame ht
  have hsubset : t.store ⊆ t'.store := by
    rw [hstore]
    exact List.Subset.refl _
  refine h.turn h.sound rfl (.nested rfl (.nested ⟨rfl, hpaired⟩ (hrest.mono id hsubset))) ?_ ?_
  · intro _ j x y
    rw [Transport.count_heldFor_waiting ht]
    simp only [cancels_cons, cancels_nil, owed_cons, owed_nil, Task.cancels, Task.owed,
      List.filterMap_cons, Action.cancel?, Action.express?, List.nil_append, List.append_nil,
      List.count_cons, List.count_nil]
    omega
  · intro _ j x
    rw [Transport.count_heldFor_waiting ht]
    simp only [withdrawals_cons, withdrawals_nil, Task.withdrawals, List.filterMap_cons,
      Action.cancel?, List.append_nil, List.count_append, List.count_cons, List.count_nil]
    omega

theorem express_answered (ht : t.express i (.retrieval 0) = (t', .answered c)) :
    Books d t'
      ([Task.arrive (.retrieval 0) c i, .settle 0 i, .perform 0 actions anyRefused] ++ rest) := by
  obtain ⟨hstore, hpending, hanswer⟩ := Transport.express_frame ht
  obtain ⟨hc, hacc⟩ := hanswer c rfl
  have hheld := Transport.count_heldFor_of_pending (hpending.trans (List.append_nil _))
    (.retrieval 0)
  have hsubset : t.store ⊆ t'.store := by
    rw [hstore]
    exact List.Subset.refl _
  refine h.turn h.sound rfl (.nested ⟨hsubset hc, hacc⟩
    (.nested rfl (.nested ⟨rfl, hpaired⟩ (hrest.mono id hsubset)))) ?_ ?_
  · intro _ j x y
    rw [hheld]
    simp only [cancels_cons, cancels_nil, owed_cons, owed_nil, Task.cancels, Task.owed,
      List.filterMap_cons, Action.cancel?, Action.express?, List.nil_append, List.append_nil,
      if_true, List.count_append, List.count_cons, List.count_nil]
    omega
  · intro _ j x
    rw [hheld]
    simp only [withdrawals_cons, withdrawals_nil, Task.withdrawals, List.filterMap_cons,
      Action.cancel?, List.append_nil, List.nil_append, List.count_append, List.count_cons,
      List.count_nil]
    omega

end Express

theorem settle_keeps (h : Books d t (.settle 0 i :: rest)) (hrest : Layered d t rest)
    (hkeep : (d.settled i).2 = .keep) : Books (d.settled i).1 t ([] ++ rest) := by
  obtain ⟨-, hphase⟩ := Discovery.settled_frame d i
  have hout := d.outstanding_settled i
  refine h.turn (Discovery.settled_sound h.sound) hphase (hrest.mono ?_ (List.Subset.refl _)) ?_ ?_
  · rw [hphase]
    exact id
  · intro _ j x y hbalance hle
    rw [hout]
    exact ⟨hbalance, hle⟩
  · intro hstopped
    simp [Discovery.settled, Discovery.isRunning, hstopped] at hkeep

theorem settle_cancels (h : Books d t (.settle 0 i :: rest)) (hrest : Layered d t rest)
    (hkeep : (d.settled i).2 ≠ .keep) :
    Books (d.settled i).1 (t.cancel i (.retrieval 0)) ([] ++ rest) := by
  obtain ⟨-, hphase⟩ := Discovery.settled_frame d i
  have hout := d.outstanding_settled i
  have hnot : i ∉ d.outstanding := fun hi => hkeep (h.sound.keep_of_outstanding hi)
  have hstore : t.store ⊆ (t.cancel i (.retrieval 0)).store := by
    rw [(t.cancel_frame i (.retrieval 0)).1]
    exact List.Subset.refl _
  refine h.turn (Discovery.settled_sound h.sound) hphase (hrest.mono ?_ hstore) ?_ ?_
  · rw [hphase]
    exact id
  · intro hopen j x y
    have hzero : (t.heldFor (.retrieval 0)).count i = 0 :=
      List.count_eq_zero.2 fun hheld => hnot (h.outstanding_of_held hopen hheld)
    rw [hout, t.count_heldFor_cancel]
    by_cases hij : i = j
    · subst hij
      rw [hzero, Nat.zero_sub]
      exact fun hbalance hle => ⟨hbalance, hle⟩
    · rw [List.count_singleton, beq_eq_false_iff_ne.2 hij]
      exact fun hbalance hle => ⟨hbalance, hle⟩
  · intro _ j x
    rw [t.count_heldFor_cancel]
    show _ ≤ [i].count j + x → _ ≤ 0 + x
    omega

theorem ignored (h : Books d t (task :: rest)) (hstopped : d.phase = .stopped)
    (hlayered : Layered d t (tasks ++ rest)) (hwithdrawals : withdrawals tasks = task.withdrawals) :
    Books d t (tasks ++ rest) := by
  refine h.turn h.sound rfl hlayered (fun hopen => absurd hstopped hopen) (fun _ j x => ?_)
  rw [hwithdrawals]
  exact id

theorem handOver_layered (hrest : Layered d t rest) (delivers : Bool) :
    Layered d t ((if delivers then [Task.handOver 0 c i] else []) ++ rest) := by
  cases delivers with
  | false => exact hrest
  | true => exact .nested rfl hrest

theorem arrive (h : Books d t (.arrive (.retrieval 0) c i :: rest)) (hrest : Layered d t rest) :
    Books (d.arrive now c i).discovery t ((Task.perform 0 (d.arrive now c i).actions false ::
      if (d.arrive now c i).delivers then [.handOver 0 c i] else []) ++ rest) := by
  by_cases hphase : d.phase = .stopped
  · rw [Discovery.arrive_stopped hphase]
    exact h.ignored hphase (.nested ⟨rfl, fun _ => True.intro⟩ hrest) rfl
  · have hi : i ∈ d.outstanding := h.outstanding_of_owed hphase (by simp [Task.owed])
    obtain ⟨hpaired, hcancels⟩ := Discovery.cancel?_arrive now c h.sound hi
    obtain ⟨-, hsame⟩ := @Discovery.arrive_frame d now c i h.sound
    have hcount := Discovery.count_outstanding_arrive now c h.sound hi
    refine h.turn (Discovery.arrive_sound h.sound) hsame
      (.nested ⟨rfl, fun _ => hpaired⟩ (handOver_layered (hrest.mono ?_ (List.Subset.refl _)) _))
      (fun _ j x y => ?_) (fun hstopped => absurd hstopped hphase)
    · rw [hsame]
      exact id
    · have hj := hcount j
      have hquiet : ∀ delivers : Bool,
          cancels (if delivers then [.handOver 0 c i] else []) = [] ∧
            owed (if delivers then [.handOver 0 c i] else []) = [] := fun delivers => by
        cases delivers <;> exact ⟨rfl, rfl⟩
      rw [cancels_cons, owed_cons, (hquiet _).1, (hquiet _).2]
      simp only [Task.cancels, Task.owed, hcancels, if_true, List.append_nil, List.count_nil]
      omega

theorem timeout (h : Books d t (.timeout (.retrieval 0) i :: rest)) (hrest : Layered d t rest) :
    Books (d.timeout now i).1 t ([Task.perform 0 (d.timeout now i).2 false] ++ rest) := by
  by_cases hphase : d.phase = .stopped
  · rw [Discovery.timeout_stopped hphase]
    exact h.ignored hphase (.nested ⟨rfl, fun _ => True.intro⟩ hrest) rfl
  · have hi : i ∈ d.outstanding := h.outstanding_of_owed hphase (by simp [Task.owed])
    obtain ⟨halike, hactions⟩ := Discovery.timeout_asked now h.sound hi
    refine h.skip halike
      (.nested ⟨rfl, fun _ => ?_⟩ (hrest.mono ?_ (List.Subset.refl _))) ?_ ?_ ?_
    · rw [hactions]
      exact True.intro
    · rw [halike.phase]
      exact id
    · simp [hactions, Task.cancels, Action.cancel?]
    · simp [hactions, Task.owed, Action.express?]
    · simp [hactions, Task.withdrawals, Action.cancel?]

theorem stop (h : Books d t (.command (.stopDiscovery .first) :: rest)) (hrest : Layered d t rest) :
    Books d.stop.1 t ([Task.perform 0 d.stop.2 false, .answer .done] ++ rest) := by
  by_cases hphase : d.phase = .stopped
  · rw [Discovery.stop_stopped hphase]
    exact h.ignored hphase (.nested ⟨rfl, fun _ => True.intro⟩ (.nested True.intro hrest)) rfl
  · have hstopped := d.stop_phase
    have hcancels := Discovery.stop_cancels hphase
    have hlayered : Layered d.stop.1 t rest :=
      hrest.mono (fun hopen => absurd hstopped hopen) (List.Subset.refl _)
    refine ⟨Discovery.stop_sound h.sound,
      .nested ⟨rfl, fun hopen => absurd hstopped hopen⟩ (.nested True.intro hlayered),
      fun hopen => absurd hstopped hopen, fun hopen => absurd hstopped hopen, fun _ j => ?_⟩
    have hbalance := h.balance hphase j
    have hle := count_cancels_le_withdrawals rest j
    simp only [List.cons_append, List.nil_append, withdrawals_cons, cancels_cons, owed_cons,
      Task.withdrawals, Task.cancels, Task.owed, hcancels, List.count_append] at hbalance ⊢
    omega

section Calls

variable {task' : Task}

theorem held_eq_zero (h : Books d t agenda) (hphase : d.phase = .created) (j : Interest) :
    (t.heldFor (.retrieval 0)).count j = 0 := by
  refine List.count_eq_zero.2 fun hj => ?_
  have hout := h.outstanding_of_held (by simp [hphase]) hj
  rw [h.sound.outstanding_eq_nil (by simp [hphase])] at hout
  cases hout

theorem start (h : Books d t [.command (.startDiscovery .first)]) :
    Books (d.start now).1 t ([Task.perform 0 (d.start now).2 false] ++ []) := by
  by_cases hphase : d.phase = .created
  · have hzero := h.held_eq_zero hphase
    have hsound := @Discovery.start_sound d now h.sound
    rw [Discovery.start_eq hphase] at hsound ⊢
    refine ⟨hsound, .nested ⟨rfl, fun _ => paired_expressions _⟩ .nil, fun _ j => ?_, fun _ j => ?_,
      by simp⟩
    · simp only [List.append_nil, cancels_cons, cancels_nil, owed_cons, owed_nil, Task.cancels,
        Task.owed, cancel?_expressions, express?_expressions, hzero j, List.count_nil, Nat.zero_add,
        Nat.add_zero]
      rfl
    · simp [Task.cancels, cancel?_expressions]
  · have hdeaf : d.start now = (d, []) := by rw [Discovery.start, if_neg hphase]
    rw [hdeaf]
    exact h.skip (.refl h.sound) (.nested ⟨rfl, fun _ => True.intro⟩ .nil) rfl rfl rfl

theorem refresh {ids : List Nat} {n m : Nat} (h : Books d t [.refreshAll (0 :: ids) now n])
    (hids : ∀ id ∈ ids, id = 0) : Books (d.refresh now).1 t
      ([Task.perform 0 (d.refresh now).2 false, .refreshAll ids now m] ++ []) := by
  by_cases hrun : d.isRunning = true
  · have haccounted := Discovery.refresh_accounted now h.sound hrun
    obtain ⟨-, hphase⟩ := d.refresh_frame now
    have houter : (Task.refreshAll (0 :: ids) now n).Outermost :=
      List.forall_mem_cons.2 ⟨rfl, hids⟩
    refine h.turn_outermost houter (Discovery.refresh_sound h.sound) hphase
      (.nested ⟨rfl, fun _ => haccounted.paired⟩ (.outermost hids)) (fun _ j => ?_) ?_
    · have hbalance := haccounted.balance j
      have hle := haccounted.cancels.count_le j
      simp only [List.append_nil, cancels_cons, cancels_nil, owed_cons, owed_nil, Task.cancels,
        Task.owed, List.count_nil]
      omega
    · intro hstopped
      simp [Discovery.isRunning, hstopped] at hrun
  · have hdeaf : d.refresh now = (d, []) := by rw [Discovery.refresh, if_neg hrun]
    rw [hdeaf]
    exact h.skip (.refl h.sound) (.nested ⟨rfl, fun _ => True.intro⟩ (.outermost hids)) rfl rfl rfl

section Publish

variable (h : Books d t [task]) (houter : task.Outermost) (howed : task.owed = [])
  (houter' : task'.Outermost) (howed' : task'.owed = [])

include h houter howed houter' howed'

theorem publish_unasked (ht : t.publish c = (t', none)) : Books d t' ([task'] ++ []) := by
  obtain ⟨-, -, hpending, -⟩ := Transport.publish_unasked ht
  refine h.turn_outermost houter h.sound rfl (.outermost houter') (fun _ j => ?_) (fun _ j => ?_)
  · rw [Transport.count_heldFor_of_pending hpending, howed, List.append_nil, owed_cons, howed',
      cancels_cons, houter'.cancels_eq]
    exact fun hbalance => ⟨hbalance, Nat.zero_le _⟩
  · rw [Transport.count_heldFor_of_pending hpending]
    omega

theorem publish_answers {p : Pending Handler} (ht : t.publish c = (t', some p)) :
    Books d t' ([Task.arrive p.handler c p.interest, task'] ++ []) := by
  obtain ⟨hstore, -, -, hacc⟩ := Transport.publish_answers ht
  have hheld := Transport.count_heldFor_publish ht (.retrieval 0)
  have hc : c ∈ t'.store := by simp [hstore]
  refine h.turn_outermost houter h.sound rfl (.nested ⟨hc, hacc⟩ (.outermost houter'))
    (fun _ j => ?_) (fun _ j => ?_)
  · rw [hheld j, howed, List.append_nil, cancels_cons, cancels_cons, houter'.cancels_eq, owed_cons,
      owed_cons, howed']
    simp only [cancels_nil, owed_nil, Task.cancels, Task.owed, List.append_nil, List.count_nil]
    omega
  · rw [hheld j]
    omega

end Publish

theorem expire {n : Nat} (h : Books d t [.command .expireAll]) :
    Books d t.expireAll.1 ([Task.timeoutAll t.expireAll.2 n] ++ []) := by
  refine h.turn_outermost True.intro h.sound rfl (.outermost True.intro) (fun _ j => ?_)
    (fun _ j _ => Nat.zero_le _)
  rw [List.append_nil, owed_cons, owed_nil, List.append_nil]
  show d.outstanding.count j = (t.heldFor (.retrieval 0)).count j + 0 → d.outstanding.count j + 0 =
    0 + (t.heldFor (.retrieval 0)).count j ∧ 0 ≤ 0
  omega

theorem timeoutNext {p : Pending Handler} {ps : List (Pending Handler)} {n : Nat}
    (h : Books d t [.timeoutAll (p :: ps) n]) :
    Books d t ([Task.timeout p.handler p.interest, .timeoutAll ps n] ++ []) := by
  refine h.skip (.refl h.sound) (.nested True.intro (.outermost True.intro)) rfl ?_ rfl
  by_cases hmine : p.handler = .retrieval 0 <;> simp [Task.owed, hmine]

theorem refuseNext (h : Books d t [.command (.refuseNext n)]) :
    Books d (t.refuseNext n) ([] ++ []) :=
  h.turn_outermost True.intro h.sound rfl .nil (fun _ _ hbalance => ⟨hbalance, Nat.zero_le _⟩)
    (fun _ _ hzero => Nat.le_of_eq hzero)

end Calls

theorem calls (h : Books d t (task :: rest)) (hcalls : task.Calls)
    (hstops : ∀ stop ∈ tasks, stop.Stops) (hrest : Layered d t rest) :
    Books d t (tasks ++ rest) := by
  have hblank : ∀ stop ∈ tasks, stop.Blank := fun stop hstop => (hstops stop hstop).blank
  refine h.skip (.refl h.sound)
    (hrest.append fun stop hstop => (hstops stop hstop).nested) ?_ ?_ ?_
  · rw [hcalls.blank.cancels_eq]
    exact List.flatMap_eq_nil_iff.2 fun stop hstop => (hblank stop hstop).cancels_eq
  · rw [hcalls.blank.owed_eq]
    exact List.flatMap_eq_nil_iff.2 fun stop hstop => (hblank stop hstop).owed_eq
  · rw [hcalls.blank.withdrawals_eq]
    exact List.flatMap_eq_nil_iff.2 fun stop hstop => (hblank stop hstop).withdrawals_eq

section Works

variable {issued : List Interest} {reach : Nat} {e : Effect}

theorem does_nested (h : Books d t (task :: rest)) (hnested : task.Nested d t)
    (hrest : Layered d t rest) (hdoes : Does issued d t task e) :
    Books e.discovery e.transport (e.tasks ++ rest) := by
  cases hdoes with
  | stop => exact h.stop hrest
  | answer | performed | handOver | handOverDropped =>
    exact h.skip (.refl h.sound) hrest rfl rfl rfl
  | cancel i actions => exact h.cancel hnested.2 hrest
  | expressRefused actions anyRefused ht => exact h.express_refused hrest hnested.2 ht
  | expressWaits actions anyRefused ht => exact h.express_waits hrest hnested.2 ht
  | expressAnswered actions anyRefused ht => exact h.express_answered hrest hnested.2 ht
  | settleKeeps hkeep => exact h.settle_keeps hrest hkeep
  | settleCancels hkeep => exact h.settle_cancels hrest hkeep
  | arrive now c i => exact h.arrive hrest
  | timeout now i => exact h.timeout hrest
  | _ => cases hnested

theorem does_outermost (h : Books d t [task]) (houter : task.Outermost)
    (hdoes : Does issued d t task e) : Books e.discovery e.transport (e.tasks ++ []) := by
  have hids : ∀ id ∈ [0], id = 0 := by simp
  have hanswer : ∀ a, (Task.answer a).Outermost := fun _ => True.intro
  have hmany : ∀ cs answered, (Task.publishAll cs answered).Outermost := fun _ _ => True.intro
  cases hdoes with
  | start now => exact h.start
  | stop => exact h.stop .nil
  | refresh now => exact h.skip (.refl h.sound) (.outermost hids) rfl rfl rfl
  | publish ht => exact h.publish_unasked houter rfl (hanswer _) rfl ht
  | publishAnswers ht => exact h.publish_answers houter rfl (hanswer _) rfl ht
  | publishMany cs => exact h.skip (.refl h.sound) (.outermost (hmany cs 0)) rfl rfl rfl
  | expire => exact h.expire
  | answer | publishedAll | timedOutAll | refreshedAll =>
    exact h.skip (.refl h.sound) .nil rfl rfl rfl
  | publishNext cs answered ht => exact h.publish_unasked houter rfl (hmany cs _) rfl ht
  | publishNextAnswers cs answered ht => exact h.publish_answers houter rfl (hmany cs _) rfl ht
  | timeoutNext => exact h.timeoutNext
  | refreshNext ids now => exact h.refresh fun id hid => houter id (List.mem_cons_of_mem 0 hid)
  | _ => cases houter

theorem does (h : Books d t (task :: rest)) (hdoes : Does issued d t task e) :
    Books e.discovery e.transport (e.tasks ++ rest) := by
  cases h.layered with
  | outermost houter => exact h.does_outermost houter hdoes
  | nested hnested hrest => exact h.does_nested hnested hrest hdoes

/-- Every step keeps the books. -/
theorem works (h : Books d t (task :: rest)) (hworks : Works issued reach d t task e) :
    Books e.discovery e.transport (e.tasks ++ rest) := by
  cases hworks with
  | does hdoes => exact h.does hdoes
  | refuseNext =>
    cases h.layered with
    | outermost => exact h.refuseNext
    | nested hnested => cases hnested
  | record =>
    cases h.layered with
    | outermost houter => cases houter
    | nested _ hrest => exact h.skip (.refl h.sound) hrest rfl rfl rfl
  | calls hcalls hstops =>
    cases h.layered with
    | outermost houter => exact absurd hcalls houter.not_calls
    | nested _ hrest => exact h.calls hcalls hstops hrest

end Works

end Books

end NamedContent
