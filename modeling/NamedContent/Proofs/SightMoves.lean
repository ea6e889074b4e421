import NamedContent.Proofs.RetrievalSight

/-! What a step does to the retrieval that it is about: an event of its discovery, one of its duties
that is done, or an Interest of its own that is answered or expires. Each is a move of its sight. -/

namespace NamedContent.Session

variable {s s' : Session} {k : Nat} {r : Retrieval} {task : Task}

section Own

variable (hr : s.retrievals[k]? = some r)

include hr

theorem sight_act (result : Discovery × List Action) {after : List Task}
    (hafter : ∀ task ∈ after, task.Idle) :
    ∃ r', (s.act k result after).retrievals[k]? = some r' ∧ (s.act k result after).sight k r' =
      ⟨result.1, s.held k, result.2.map Action.duty ++ duties k s.agenda⟩ := by
  have hget := s.act_getElem? k k result after
  rw [hr, Option.map_some, if_pos rfl] at hget
  have hduties : duties k (s.act k result after).agenda =
      result.2.map Action.duty ++ duties k s.agenda := by
    rw [act, push, List.cons_append, duties_cons, duties_append, Task.duties, if_pos rfl,
      duties_eq_nil fun task htask => hafter task htask k]
    rfl
  refine ⟨_, hget, ?_⟩
  rw [sight, hduties]
  rfl

theorem movesTo_act (result : Discovery × List Action) {after : List Task}
    (hafter : ∀ task ∈ after, task.Idle)
    (hmoves : Sight.Moves (s.Undisturbed task k r)
      ⟨r.discovery, s.held k, task.duties k ++ duties k s.agenda⟩
      ⟨result.1, s.held k, result.2.map Action.duty ++ duties k s.agenda⟩) :
    s.MovesTo (s.act k result after) task k r := by
  obtain ⟨r', hr', hsight⟩ := sight_act hr result hafter
  exact ⟨r', hr', hsight ▸ hmoves⟩

theorem movesTo_modifyDiscovery (f : Discovery → Discovery)
    (hs' : s'.retrievals = (s.modifyDiscovery k f).retrievals)
    (hmoves : Sight.Moves (s.Undisturbed task k r)
      ⟨r.discovery, s.held k, task.duties k ++ duties k s.agenda⟩
      ⟨f r.discovery, s'.held k, duties k s'.agenda⟩) : s.MovesTo s' task k r := by
  have hget := s.modifyDiscovery_getElem? k k f
  rw [hr, Option.map_some, if_pos rfl, ← hs'] at hget
  exact ⟨_, hget, hmoves⟩

variable (rest : List Action) (anyRefused : Bool) {i : Interest} {t : Transport Handler}

theorem sight_cancels :
    ∃ r', (((s.cancelFor k i).modifyDiscovery k (·.cancelled)).push
      [.perform k rest anyRefused]).retrievals[k]? = some r' ∧
    (((s.cancelFor k i).modifyDiscovery k (·.cancelled)).push
      [.perform k rest anyRefused]).sight k r' =
        ⟨r.discovery.cancelled, fun j => s.held k j - [i].count j,
          rest.map Action.duty ++ duties k s.agenda⟩ := by
  have hget := (s.cancelFor k i).modifyDiscovery_getElem? k k (·.cancelled)
  rw [show (s.cancelFor k i).retrievals[k]? = some r from hr, Option.map_some, if_pos rfl] at hget
  have hheld : (((s.cancelFor k i).modifyDiscovery k (·.cancelled)).push
      [.perform k rest anyRefused]).held k = fun j => s.held k j - [i].count j :=
    funext fun j => s.transport.count_heldFor_cancel i (.retrieval k) j
  refine ⟨_, hget, ?_⟩
  rw [sight, hheld]
  simp only [push, Task.duties, cancelFor, modifyDiscovery, modifyRetrieval, record, if_pos,
    List.cons_append, List.nil_append, duties_cons]

theorem movesTo_cancels :
    s.MovesTo
      (((s.cancelFor k i).modifyDiscovery k (·.cancelled)).push [.perform k rest anyRefused])
      (.perform k (.cancel i :: rest) anyRefused) k r := by
  obtain ⟨r', hr', hsight⟩ := @sight_cancels s k r hr rest anyRefused i
  refine ⟨r', hr', ?_⟩
  rw [hsight]
  simp only [Task.duties, if_pos, List.map_cons, Action.duty, List.cons_append]
  exact .cancels _ _ _ i

theorem movesTo_expressRefused (ht : s.transport.express i (.retrieval k) = (t, .refused)) :
    s.MovesTo ((({ s.record (.express i) with issued := s.issued ++ [i], transport := t }.record
        .refused).modifyDiscovery k (·.refused i)).push [.perform k rest true])
      (.perform k (.express i :: rest) anyRefused) k r := by
  refine movesTo_modifyDiscovery hr (·.refused i) rfl ?_
  have hheld : held ((({ s.record (.express i) with
      issued := s.issued ++ [i], transport := t }.record .refused).modifyDiscovery k
        (·.refused i)).push [.perform k rest true]) k = s.held k :=
    funext fun j => Transport.count_heldFor_express ht (.retrieval k) j
  rw [hheld]
  simp only [push, Task.duties, modifyDiscovery, modifyRetrieval, record, if_pos,
    List.map_cons, Action.duty, List.cons_append, List.nil_append, duties_cons]
  exact .expressRefused _ _ _ i

theorem movesTo_expressWaits (ht : s.transport.express i (.retrieval k) = (t, .waiting)) :
    s.MovesTo ({ s.record (.express i) with issued := s.issued ++ [i], transport := t }.push
        [.settle k i, .perform k rest anyRefused])
      (.perform k (.express i :: rest) anyRefused) k r := by
  refine ⟨r, hr, ?_⟩
  have hheld : held ({ s.record (.express i) with
      issued := s.issued ++ [i], transport := t }.push
        [.settle k i, .perform k rest anyRefused]) k = fun j => s.held k j + [i].count j :=
    funext fun j => by
      have hmore := Transport.count_heldFor_express ht (.retrieval k) j
      rwa [if_pos ⟨rfl, rfl⟩] at hmore
  rw [sight, hheld]
  simp only [push, Task.duties, record, if_pos, List.map_cons, Action.duty, List.cons_append,
    List.nil_append, duties_cons]
  exact .expressWaits _ _ _ i

theorem movesTo_expressAnswered {c : Content}
    (ht : s.transport.express i (.retrieval k) = (t, .answered c)) :
    s.MovesTo ({ s.record (.express i) with issued := s.issued ++ [i], transport := t }.push
        [.arrive (.retrieval k) c i, .settle k i, .perform k rest anyRefused])
      (.perform k (.express i :: rest) anyRefused) k r := by
  refine ⟨r, hr, ?_⟩
  have hheld : held ({ s.record (.express i) with
      issued := s.issued ++ [i], transport := t }.push
        [.arrive (.retrieval k) c i, .settle k i, .perform k rest anyRefused]) k = s.held k :=
    funext fun j => Transport.count_heldFor_express ht (.retrieval k) j
  rw [sight, hheld]
  simp only [push, Task.duties, record, if_pos, List.map_cons, Action.duty, List.cons_append,
    List.nil_append, duties_cons]
  exact .expressAnswered _ _ _ i

theorem movesTo_settleKeeps (hkeep : (r.discovery.settled i).2 = .keep) :
    s.MovesTo (s.modifyDiscovery k fun _ => (r.discovery.settled i).1) (.settle k i) k r := by
  refine movesTo_modifyDiscovery hr (fun _ => (r.discovery.settled i).1) rfl ?_
  simp only [Task.duties, if_pos]
  exact .settleKeeps _ _ hkeep

theorem movesTo_settleCancels (hkeep : (r.discovery.settled i).2 ≠ .keep) :
    s.MovesTo ((s.modifyDiscovery k fun _ => (r.discovery.settled i).1).cancelFor k i)
      (.settle k i) k r := by
  refine movesTo_modifyDiscovery hr (fun _ => (r.discovery.settled i).1) rfl ?_
  have hheld : ((s.modifyDiscovery k fun _ => (r.discovery.settled i).1).cancelFor k i).held
      k = fun j => s.held k j - [i].count j :=
    funext fun j => s.transport.count_heldFor_cancel i (.retrieval k) j
  rw [hheld]
  simp only [Task.duties, if_pos]
  exact .settleCancels _ _ hkeep

theorem movesTo_publishAnswers {p : Pending Handler} {c : Content} {after : List Task}
    (hidle : task.Idle) (ht : s.transport.publish c = (t, some p))
    (hafter : ∀ task ∈ after, task.Light) (hmine : p.handler = .retrieval k) :
    s.MovesTo
      (({ s with transport := t } : Session).push (.arrive p.handler c p.interest :: after))
      task k r := by
  refine ⟨r, hr, ?_⟩
  rw [hidle k, List.nil_append, sight, push, List.cons_append, duties_cons, duties_append,
    duties_eq_nil fun task htask => (hafter task htask).idle k, Task.duties, if_pos hmine]
  refine .isAnswered _ _ _ fun j => ?_
  simpa [hmine, held] using Transport.count_heldFor_publish ht (.retrieval k) j

theorem movesTo_expires (n : Nat) :
    s.MovesTo (({ s with transport := s.transport.expireAll.1 } : Session).push
      [.timeoutAll s.transport.expireAll.2 n]) (.command .expireAll) k r := by
  refine ⟨r, hr, ?_⟩
  rw [sight, push, List.singleton_append, duties_cons, duties_timeoutAll]
  exact .expires _ _ _ fun _ => rfl

end Own

end NamedContent.Session
