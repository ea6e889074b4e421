import NamedContent.Proofs.SightMoves

/-! What a step of a session is for each of its retrievals: nothing changes for it, or it makes a
move of its own, or it is made just now. -/

namespace NamedContent.Session

variable {s s' : Session} {k id : Nat} {r : Retrieval} {task : Task}

/-- What a step that takes `task` from the agenda is for the retrieval `k`: nothing; or it finds
something to do for it, and the retrieval moves if it is there; or it makes the retrieval. -/
inductive Concerns (s s' : Session) (task : Task) (k : Nat) : Prop where
  | passes (h : s.Passes s' task k)
  | engages (hfinds : s.Away k → (∀ c, task = .command c → c.ByTransport) → task.duties k ≠ [])
      (hmoves : ∀ r, s.retrievals[k]? = some r → s.MovesTo s' task k r)
  | creates (h : s.Creates s') (hk : s.retrievals.length = k)

namespace Concerns

theorem of_duty (hduties : task.duties id ≠ []) (hpasses : id ≠ k → s.Passes s' task k)
    (hmoves : ∀ r, s.retrievals[id]? = some r → s.MovesTo s' task id r) :
    s.Concerns s' task k := by
  by_cases hid : id = k
  · subst hid
    exact .engages (fun _ _ => hduties) hmoves
  · exact .passes (hpasses hid)

theorem of_there (hr : s.retrievals[id]? = some r) (hpasses : id ≠ k → s.Passes s' task k)
    (hmoves : s.MovesTo s' task id r) : s.Concerns s' task k := by
  by_cases hid : id = k
  · subst hid
    refine .engages (fun haway _ => ?_) fun r' hr' => ?_
    · rw [haway.absent] at hr
      cases hr
    · obtain rfl : r = r' := Option.some.inj (hr.symm.trans hr')
      exact hmoves
  · exact .passes (hpasses hid)

section Event

variable {result : Discovery × List Action} {after : List Task}
  (hr : s.retrievals[id]? = some r) (hafter : ∀ task ∈ after, task.Idle)
  (hother : id ≠ k → task.duties k = [])
  (hmoves : Sight.Moves (s.Undisturbed task id r)
    ⟨r.discovery, s.held id, task.duties id ++ duties id s.agenda⟩
    ⟨result.1, s.held id, result.2.map Action.duty ++ duties id s.agenda⟩)

include hr hafter hother hmoves

theorem of_event : s.Concerns (s.act id result after) task k :=
  .of_there hr (fun hid => (Passes.refl (hother hid)).act hid result hafter)
    (movesTo_act hr result hafter hmoves)

theorem of_act (registry : Option Registry) (g : FanOut → FanOut) :
    s.Concerns ((({ s with registry } : Session).modifyFanOut id g).act id result after) task
      k := by
  refine .of_there hr (fun hid => ?_) ?_
  · have hregistry : s.Passes { s with registry } task k :=
      (Passes.refl (hother hid)).of_same rfl rfl rfl
    exact (hregistry.modifyFanOut id g).act hid result hafter
  · have hget := modifyFanOut_getElem? { s with registry } id id g
    rw [hr] at hget
    exact movesTo_act (s := ({ s with registry } : Session).modifyFanOut id g) hget result hafter
      hmoves

end Event

end Concerns

theorem passes_express {i : Interest} {t : Transport Handler} {e : Transport.Expression}
    (hid : id ≠ k) (ht : s.transport.express i (.retrieval id) = (t, e)) (rest : List Action)
    (anyRefused : Bool) :
    s.Passes { s.record (.express i) with issued := s.issued ++ [i], transport := t }
      (.perform id (.express i :: rest) anyRefused) k := by
  have hduties : Task.duties k (.perform id (.express i :: rest) anyRefused) = [] := if_neg hid
  have hexpressed : s.Passes { s with transport := t }
      (.perform id (.express i :: rest) anyRefused) k := by
    refine (Passes.refl hduties).moved fun j => ?_
    rw [Transport.count_heldFor_express ht, if_neg (by simp [Ne.symm hid]), Nat.add_zero, held]
  exact hexpressed.of_same rfl rfl rfl

section Kinds

variable {i : Interest} {t : Transport Handler}

theorem concerns_cancels (id : Nat) (i : Interest) (rest : List Action) (anyRefused : Bool) :
    s.Concerns
      (((s.cancelFor id i).modifyDiscovery id (·.cancelled)).push [.perform id rest anyRefused])
      (.perform id (.cancel i :: rest) anyRefused) k := by
  refine .of_duty (by simp [Task.duties]) (fun hid => ?_) fun r hr =>
    movesTo_cancels hr rest anyRefused
  have hduties : Task.duties k (.perform id (.cancel i :: rest) anyRefused) = [] := if_neg hid
  exact (((Passes.refl hduties).cancelFor hid i).modifyDiscovery hid _).push
    (List.forall_mem_singleton.2 (if_neg hid))

theorem concerns_expressRefused (ht : s.transport.express i (.retrieval id) = (t, .refused))
    (rest : List Action) (anyRefused : Bool) :
    s.Concerns ((({ s.record (.express i) with
        issued := s.issued ++ [i], transport := t }.record .refused).modifyDiscovery id
          (·.refused i)).push [.perform id rest true])
      (.perform id (.express i :: rest) anyRefused) k := by
  refine .of_duty (by simp [Task.duties]) (fun hid => ?_) fun r hr =>
    movesTo_expressRefused hr rest anyRefused ht
  have hrefused : s.Passes ({ s.record (.express i) with
      issued := s.issued ++ [i], transport := t }.record .refused)
        (.perform id (.express i :: rest) anyRefused) k :=
    (passes_express hid ht rest anyRefused).of_same rfl rfl rfl
  exact (hrefused.modifyDiscovery hid _).push (List.forall_mem_singleton.2 (if_neg hid))

theorem concerns_expressWaits (ht : s.transport.express i (.retrieval id) = (t, .waiting))
    (rest : List Action) (anyRefused : Bool) :
    s.Concerns ({ s.record (.express i) with issued := s.issued ++ [i], transport := t }.push
        [.settle id i, .perform id rest anyRefused])
      (.perform id (.express i :: rest) anyRefused) k :=
  .of_duty (by simp [Task.duties])
    (fun hid => (passes_express hid ht rest anyRefused).push (by simp [Task.duties, hid]))
    fun _ hr => movesTo_expressWaits hr rest anyRefused ht

theorem concerns_expressAnswered {c : Content}
    (ht : s.transport.express i (.retrieval id) = (t, .answered c)) (rest : List Action)
    (anyRefused : Bool) :
    s.Concerns ({ s.record (.express i) with issued := s.issued ++ [i], transport := t }.push
        [.arrive (.retrieval id) c i, .settle id i, .perform id rest anyRefused])
      (.perform id (.express i :: rest) anyRefused) k :=
  .of_duty (by simp [Task.duties])
    (fun hid => (passes_express hid ht rest anyRefused).push (by simp [Task.duties, hid]))
    fun _ hr => movesTo_expressAnswered hr rest anyRefused ht

theorem concerns_settleKeeps (hr : s.retrievals[id]? = some r)
    (hkeep : (r.discovery.settled i).2 = .keep) :
    s.Concerns (s.modifyDiscovery id fun _ => (r.discovery.settled i).1) (.settle id i) k := by
  refine .of_there hr (fun hid => ?_) (movesTo_settleKeeps hr hkeep)
  have hduties : Task.duties k (.settle id i) = [] := if_neg hid
  exact (Passes.refl hduties).modifyDiscovery hid _

theorem concerns_settleCancels (hr : s.retrievals[id]? = some r)
    (hkeep : (r.discovery.settled i).2 ≠ .keep) :
    s.Concerns ((s.modifyDiscovery id fun _ => (r.discovery.settled i).1).cancelFor id i)
      (.settle id i) k := by
  refine .of_there hr (fun hid => ?_) (movesTo_settleCancels hr hkeep)
  have hduties : Task.duties k (.settle id i) = [] := if_neg hid
  exact ((Passes.refl hduties).modifyDiscovery hid _).cancelFor hid i

theorem concerns_publishAnswers {p : Pending Handler} {c : Content} {after : List Task}
    (hidle : task.Idle) (ht : s.transport.publish c = (t, some p))
    (hafter : ∀ task ∈ after, task.Light) :
    s.Concerns
      (({ s with transport := t } : Session).push (.arrive p.handler c p.interest :: after))
      task k := by
  have hheld := fun j => Transport.count_heldFor_publish ht (.retrieval k) j
  by_cases hmine : p.handler = .retrieval k
  · refine .engages (fun haway _ => ?_) fun r hr =>
      movesTo_publishAnswers hr hidle ht hafter hmine
    have hone := hheld p.interest
    rw [haway.heldFor_eq_nil, if_pos hmine, List.count_singleton_self, List.count_nil] at hone
    cases hone
  · refine .passes (((Passes.refl (hidle k)).moved fun j => ?_).push fun u hu => ?_)
    · have hsame := hheld j
      rw [if_neg hmine, List.count_nil, Nat.add_zero] at hsame
      exact hsame.symm
    · rcases List.mem_cons.1 hu with rfl | hu
      · exact if_neg hmine
      · exact (hafter u hu).idle k

theorem concerns_expires (n : Nat) :
    s.Concerns (({ s with transport := s.transport.expireAll.1 } : Session).push
      [.timeoutAll s.transport.expireAll.2 n]) (.command .expireAll) k := by
  by_cases hnil : s.transport.heldFor (.retrieval k) = []
  · refine .passes (((Passes.refl rfl).moved fun j => ?_).push ?_)
    · rw [Session.held, hnil]
      rfl
    · exact List.forall_mem_singleton.2 (by rw [duties_timeoutAll, hnil, List.map_nil])
  · exact .engages (fun haway _ => absurd haway.heldFor_eq_nil hnil) fun r hr =>
      movesTo_expires hr n

end Kinds

theorem registered_getElem?_of_ne (hk : s.retrievals.length ≠ k) (registry : Registry) (n : Name)
    (l : ListenerId) (d : Discovery) :
    (s.registered registry n l d).retrievals[k]? = s.retrievals[k]? := by
  rcases Nat.lt_or_gt_of_ne hk with hlt | hlt
  · rw [List.getElem?_eq_none (Nat.le_of_lt hlt), List.getElem?_eq_none]
    simpa [registered, Nat.succ_le_iff] using hlt
  · exact List.getElem?_append_left hlt

theorem duties_of_tells {tasks : List Task} (h : ∀ task ∈ tasks, task.Tells) (k : Nat) :
    ∃ is : List Interest, duties k tasks = is.map .answer := by
  induction tasks with
  | nil => exact ⟨[], rfl⟩
  | cons task tasks ih =>
    obtain ⟨htask, htasks⟩ := List.forall_mem_cons.1 h
    obtain ⟨js, hjs⟩ := htask k
    obtain ⟨is, his⟩ := ih htasks
    exact ⟨js ++ is, by rw [duties_cons, hjs, his, List.map_append]⟩

theorem concerns_asks {c : Command} {tasks : List Task} (hc : ¬ c.ByTransport)
    (htasks : ∀ task ∈ tasks, task.Tells) :
    s.Concerns (s.push tasks) (.command c) k := by
  refine .engages (fun _ hby => absurd (hby c rfl) hc) fun r hr => ⟨r, hr, ?_⟩
  obtain ⟨is, his⟩ := duties_of_tells htasks k
  rw [sight, push, duties_append, his]
  exact .tells (fun hcalm => hc (hcalm.1 c rfl)) _ _ _ is

/-- What a step is for each retrieval, be it there or not. -/
theorem Executed.concerns (h : Executed s task s') (k : Nat) : s.Concerns s' task k := by
  cases h with
  | replies a horders hspares =>
    by_cases hduties : task.duties k = []
    · exact .passes ((Passes.refl hduties).of_same rfl rfl rfl)
    · exact .engages (fun _ _ => hduties) fun r hr => absurd (hspares k r hr).1 hduties
  | records | expired => exact .passes ((Passes.refl rfl).of_same rfl rfl rfl)
  | @commands c t tasks a haside htasks =>
    have hmoved : s.Passes { s with transport := t } (.command c) k :=
      (Passes.refl rfl).moved (haside.held k)
    exact .passes ((hmoved.push fun u hu => (htasks u hu).idle k).of_same rfl rfl rfl)
  | asks hc htasks => exact concerns_asks hc fun u hu => (htasks u hu).1
  | publishes htask ht hafter =>
    refine .passes (((Passes.refl (htask.idle k)).moved fun j => ?_).push fun u hu =>
      (hafter u hu).idle k)
    exact Transport.count_heldFor_of_pending (Transport.publish_unasked ht).2.2.1 _ j
  | publishAnswers htask ht hafter => exact concerns_publishAnswers htask.idle ht hafter
  | expires => exact concerns_expires _
  | timesOutNext p ps n =>
    refine .passes ⟨rfl, fun _ => rfl, ?_⟩
    by_cases hmine : p.handler = .retrieval k <;> simp [Session.push, Task.duties, hmine]
  | callsBack l htask => exact .passes ((Passes.refl (htask.idle k)).call _ _ (by simp))
  | cancels id i rest anyRefused => exact concerns_cancels id i rest anyRefused
  | expressRefused rest anyRefused ht => exact concerns_expressRefused ht rest anyRefused
  | expressWaits rest anyRefused ht => exact concerns_expressWaits ht rest anyRefused
  | expressAnswered rest anyRefused ht => exact concerns_expressAnswered ht rest anyRefused
  | settleKeeps hr hkeep => exact concerns_settleKeeps hr hkeep
  | settleCancels hr hkeep => exact concerns_settleCancels hr hkeep
  | arrives c i hr =>
    refine .of_event hr ?_ (fun hid => by simp [Task.duties, hid]) ?_
    · split <;> simp [Task.Idle, Task.duties]
    · simp only [Task.duties, if_pos, List.singleton_append]
      exact .arrives _ _ _ s.now c i
  | timesOut i hr =>
    refine .of_event hr (by simp) (fun hid => by simp [Task.duties, hid]) ?_
    simp only [Task.duties, if_pos, List.singleton_append]
    exact .timesOut _ _ _ s.now i
  | handsTo => exact .passes ((Passes.refl rfl).call _ _ (by simp))
  | handsOver =>
    rw [Session.beginFanOut]
    split
    · exact .passes ((Passes.refl rfl).push (by simp [Task.duties]))
    · exact .passes ((Passes.refl rfl).push (by simp))
  | fansOut =>
    refine .passes ((Passes.refl rfl).call _ _ fun outcome => ?_)
    cases outcome <;> simp [Task.Idle, Task.duties, Outcome.isFailure]
  | skips => exact .passes ((Passes.refl rfl).push (List.forall_mem_singleton.2 rfl))
  | countsFailure id => exact .passes ((Passes.refl rfl).modifyFanOut id _)
  | starts hc hr f =>
    exact .of_act hr (by simp) (fun _ => rfl) (.starts _ _ _ s.now) _ f
  | @stops _ id r htends hr f hf _ registry =>
    refine .of_act hr (by simp [Task.Idle, Task.duties]) (fun _ => htends.idle k) ?_ registry f
    rw [htends.idle]
    exact .stops _ _ _
  | stopsNext ids hr =>
    exact .of_act hr (by simp [Task.Idle, Task.duties]) (fun _ => rfl) (.stops _ _ _) _ _
  | refreshes ids now n hr =>
    exact .of_event hr (by simp [Task.Idle, Task.duties]) (fun _ => rfl)
      (.refreshes _ now fun hcalm => hcalm.2 True.intro)
  | refreshesOnce => exact .passes ((Passes.refl rfl).push (by simp [Task.duties]))
  | @tends _ id f a htends =>
    exact .passes (((Passes.refl (htends.idle k)).modifyFanOut id f).of_same rfl rfl rfl)
  | dropsOwner t id =>
    refine .passes ((Passes.refl rfl).of_map (s.modifyRetrieval_getElem? id k _) (fun r => ?_)
      rfl rfl)
    split <;> rfl
  | registers hregistry n l ticks floorTicks hrange floor hnew =>
    by_cases hk : s.retrievals.length = k
    · exact .creates ⟨_, n, l, _, floor, hregistry, hrange, rfl⟩ hk
    · refine .passes ⟨by rw [registered_getElem?_of_ne hk], fun _ => rfl, ?_⟩
      simp [registered, Task.duties, hk]
  | @closes c hc registry =>
    have hmarked : s.Passes { s with retrievals := (s.closeRegistry registry).retrievals }
        (.command c) k :=
      (Passes.refl rfl).of_map (s.closeRegistry_getElem? registry k) (fun _ => rfl) rfl rfl
    have hidle : ∀ u ∈ [Task.stopAll (s.listed registry), .answer .done],
        u.duties k = [] := by simp [Task.duties]
    rw [closeRegistry_eq]
    exact .passes ((hmarked.push hidle).of_same rfl rfl rfl)
  | keeps n id hregistry hfind =>
    rw [keep, hfind]
    exact .passes ((Passes.refl rfl).of_same rfl rfl rfl)

theorem Executed.movesTo (h : Executed s task s') (hr : s.retrievals[k]? = some r) :
    s.MovesTo s' task k r := by
  rcases h.concerns k with hpasses | ⟨-, hmoves⟩ | ⟨-, hk⟩
  · exact hpasses.movesTo hr
  · exact hmoves r hr
  · exact absurd hk (Nat.ne_of_gt (List.getElem?_eq_some_iff.1 hr).1)

theorem Executed.away_or_born (h : Executed s task s')
    (hby : ∀ c, task = .command c → c.ByTransport)
    (hvalid : ∀ registry, s.registry = some registry → registry.config.Valid)
    (haway : s.Away k) (hnone : task.duties k = []) :
    s'.Away k ∨
    ∃ (d : Discovery) (l : ListenerId), d.Sound ∧ d.phase = .created ∧
      s'.retrievals[k]? = some (s.started l d) ∧
      s'.sight k (s.started l d) =
        ⟨(d.start s.now).1, fun _ => 0, (d.start s.now).2.map Action.duty⟩ := by
  rcases h.concerns k with hpasses | ⟨hfinds, -⟩ | ⟨hcreates, rfl⟩
  · exact .inl (hpasses.away haway hnone)
  · exact absurd hnone (hfinds haway hby)
  · obtain ⟨registry, n, l, exclusions, floor, hregistry, hrange, rfl⟩ := hcreates
    refine .inr ⟨_, l, Discovery.create_sound (hvalid registry hregistry) hrange, rfl,
      getElem?_append_cons _ [] _, ?_⟩
    have hheld : s.held s.retrievals.length = fun _ => 0 := funext haway.held
    rw [← hheld, sight, registered]
    simp only [duties_cons, Task.duties, if_true, haway.duties, List.append_nil]
    rfl

end NamedContent.Session
