import Mathlib.Data.Nat.Find
import NamedContent.Proofs.ListenerTurns

/-! Who is called by a fan-out. Each of those registered when it begins has one turn, in that order.
Whoever is called may fail, register and remove listeners and stop retrievals. None of that puts
off the turn of another; only a stop does, and it does so for good.

Of listeners that publish, express or refresh so much is true whenever the fan-out has returned.
If they call nobody it does return, and all that is handed over and counted is of a turn. -/

namespace NamedContent.Session

variable {s start : Session} {id n : Nat} {task : Task} {tasks rest : List Task}
  {l : ListenerId} {later : List ListenerId} {c : Content} {i : Interest}

/-- At its turn the listener is handed the content if it is called, and otherwise nobody is. -/
def Turn.HandsOver (id : Nat) (c : Content) (i : Interest) (t : Turn) : Prop :=
  t.session.step.log =
    if t.isCall id then .deliver t.listener c i :: t.session.log else t.session.log

theorem hands_over_of_fanOut
    (hagenda : (step^[n] start).agenda = .fanOut id (l :: later) c i :: rest)
    (h : ∀ t ∈ start.turns id rest.length n, t.HandsOver id c i)
    (hlog : (step^[n + 1] start).log = if (step^[n] start).reaches id l then
      .deliver l c i :: (step^[n] start).log else (step^[n] start).log) :
    ∀ t ∈ start.turns id rest.length (n + 1), t.HandsOver id c i := by
  intro t ht
  rw [turns_of_fanOut hagenda, List.mem_append, List.mem_singleton] at ht
  rcases ht with ht | rfl
  · exact h t ht
  · rw [Turn.HandsOver, ← Function.iterate_succ_apply' step n start]
    exact hlog

/-- The turns of a fan-out that has returned to `rest` after `n` steps, among the listeners that
were registered at the start of it. -/
structure CallsInTurn (start : Session) (id : Nat) (f : FanOut) (c : Content) (i : Interest)
    (rest : List Task) (n : Nat) : Prop where
  in_order : (start.turns id rest.length n).map Turn.listener <+: f.listeners
  once : f.listeners.Nodup → ((start.callTurns id rest.length n).map Turn.listener).Nodup
  to_the_end : (start.turns id rest.length n).map Turn.listener = f.listeners ∨
    (step^[n] start).fansOut id = false
  hands_over : ∀ t ∈ start.turns id rest.length n, t.HandsOver id c i

theorem CallsInTurn.of_turns {f : FanOut}
    (hbegins : (start.turns id rest.length n).map Turn.listener <+: f.listeners)
    (hend : (start.turns id rest.length n).map Turn.listener = f.listeners ∨
      (step^[n] start).fansOut id = false)
    (hhands : ∀ t ∈ start.turns id rest.length n, t.HandsOver id c i) :
    CallsInTurn start id f c i rest n := by
  refine ⟨hbegins, fun hnodup => ?_, hend, hhands⟩
  have hsublist : ((start.callTurns id rest.length n).map Turn.listener).Sublist f.listeners :=
    (List.filter_sublist.map Turn.listener).trans hbegins.sublist
  exact hsublist.nodup hnodup

structure FannedOut (start : Session) (id : Nat) (f : FanOut) (c : Content) (i : Interest)
    (rest : List Task) (n : Nat) : Prop where
  returned : (step^[n] start).agenda = rest
  turns : CallsInTurn start id f c i rest n
  accounts : start.Scripted Command.CallsNobody →
    Accounts start id c i (start.callTurns id rest.length n) (step^[n] start) []

/-- In the middle of a fan-out: those of `pre` have had their turns, those of `post` are yet to
have theirs, and before that `tasks` are to be done. -/
structure UnderWay (start : Session) (id : Nat) (f : FanOut) (c : Content) (i : Interest)
    (rest : List Task) (n : Nat) (pre post : List ListenerId) (tasks : List Task) : Prop where
  agenda : (step^[n] start).agenda = tasks ++ .fanOut id post c i :: rest
  listeners : f.listeners = pre ++ post
  turns : (start.turns id rest.length n).map Turn.listener = pre
  hands_over : ∀ t ∈ start.turns id rest.length n, t.HandsOver id c i
  accounts : start.Scripted Command.CallsNobody →
    Accounts start id c i (start.callTurns id rest.length n) (step^[n] start) tasks

namespace UnderWay

variable {f : FanOut} {pre post : List ListenerId}

theorem step_on (h : UnderWay start id f c i rest n pre post (task :: tasks)) :
    ∃ new, UnderWay start id f c i rest (n + 1) pre post (new ++ tasks) := by
  have hagenda : (step^[n] start).agenda = task :: (tasks ++ .fanOut id post c i :: rest) :=
    h.agenda
  have hscripted : ((step^[n] start).taken (tasks ++ .fanOut id post c i :: rest)).Scripted
      fun _ => True := fun _ _ _ _ _ _ => True.intro
  obtain ⟨-, new, hnew, -⟩ := (step_executed hagenda).brings hscripted
  have hnew : (step^[n] start).step.agenda = new ++ (tasks ++ .fanOut id post c i :: rest) := hnew
  have hturns : start.turns id rest.length (n + 1) = start.turns id rest.length n := by
    have hlonger : rest.length < (tasks ++ .fanOut id post c i :: rest).length := by
      rw [List.length_append, List.length_cons]
      omega
    rw [turns_succ, turn?_of_lt hagenda hlonger, Option.toList_none, List.append_nil]
  refine ⟨new, ?_, h.listeners, hturns ▸ h.turns, hturns ▸ h.hands_over, fun hscripts => ?_⟩
  · rw [Function.iterate_succ_apply', hnew, List.append_assoc]
  · obtain ⟨new', hnew', haccounts⟩ := (h.accounts hscripts).step_on hagenda
    obtain rfl : new' = new := List.append_cancel_right (hnew'.symm.trans hnew)
    rw [callTurns, hturns, Function.iterate_succ_apply']
    exact haccounts

theorem step_last (h : UnderWay start id f c i rest n pre [] []) :
    FannedOut start id f c i rest (n + 1) := by
  have hagenda : (step^[n] start).agenda = .fanOut id [] c i :: rest := h.agenda
  have hstep : step^[n + 1] start = (step^[n] start).taken rest := by
    rw [Function.iterate_succ_apply', step_cons hagenda]
    rfl
  have hturns : start.turns id rest.length (n + 1) = start.turns id rest.length n := by
    rw [turns_succ, turn?_of_fanOut_nil hagenda, Option.toList_none, List.append_nil]
  have hall : (start.turns id rest.length (n + 1)).map Turn.listener = f.listeners := by
    rw [hturns, h.turns, h.listeners, List.append_nil]
  refine ⟨by rw [hstep]; rfl,
    .of_turns (hall ▸ List.prefix_rfl) (.inl hall) (hturns ▸ h.hands_over), ?_⟩
  intro hscripts
  rw [callTurns, hturns, hstep]
  exact (h.accounts hscripts).pass rfl rfl

theorem step_turn (h : UnderWay start id f c i rest n pre (l :: later) []) :
    FannedOut start id f c i rest (n + 1) ∨
      ∃ tasks, UnderWay start id f c i rest (n + 1) (pre ++ [l]) later tasks := by
  have hagenda : (step^[n] start).agenda = .fanOut id (l :: later) c i :: rest := h.agenda
  have hmap : (start.turns id rest.length (n + 1)).map Turn.listener = pre ++ [l] := by
    rw [turns_of_fanOut hagenda, List.map_append, h.turns]
    rfl
  have hlisteners : f.listeners = pre ++ [l] ++ later := by
    rw [h.listeners, List.append_assoc]
    rfl
  have hstep : step^[n + 1] start =
      ((step^[n] start).taken rest).fanOut id c i (l :: later) := by
    rw [Function.iterate_succ_apply', step_cons hagenda]
    rfl
  have hhands := hands_over_of_fanOut hagenda h.hands_over
  have hcalled := callTurns_of_fanOut hagenda
  have htaken : (step^[n] start).reaches id l = ((step^[n] start).taken rest).reaches id l := rfl
  rw [htaken] at hhands hcalled
  have htakes := ((step^[n] start).taken rest).takes_fanOut id l later c i
  rw [← hstep] at htakes
  rcases htakes with ⟨hreaches, hstopped, hs'⟩ | ⟨hreaches, hs'⟩ | ⟨hreaches, hs'⟩ <;>
    rw [hreaches] at hhands hcalled
  · refine .inl ⟨by rw [hs']; rfl, .of_turns ?_ (.inr ?_) (hhands ?_), ?_⟩
    · exact hmap ▸ hlisteners ▸ List.prefix_append _ _
    · rw [hs']
      exact hstopped
    · rw [hs']
      rfl
    · intro hscripts
      rw [hcalled, hs', if_neg Bool.false_ne_true, List.append_nil]
      exact (h.accounts hscripts).pass rfl rfl
  · refine .inr ⟨[], ?_, hlisteners, hmap, hhands ?_, ?_⟩
    · rw [hs']
      rfl
    · rw [hs']
      rfl
    · intro hscripts
      rw [hcalled, hs', if_neg Bool.false_ne_true, List.append_nil]
      exact (h.accounts hscripts).pass rfl rfl
  · refine .inr ⟨(step^[n] start).callTasks id l, ?_, hlisteners, hmap, hhands ?_, ?_⟩
    · rw [hs']
      exact List.append_assoc _ _ _
    · rw [hs']
      rfl
    · intro hscripts
      rw [hcalled, hs', if_pos rfl]
      exact (h.accounts hscripts).call (hscripts.iterate n) l rfl rfl

theorem iterate (h : UnderWay start id f c i rest 0 pre post tasks) (n : Nat) :
    (∃ pre post tasks, UnderWay start id f c i rest n pre post tasks) ∨
      ∃ m ≤ n, FannedOut start id f c i rest m := by
  induction n with
  | zero => exact .inl ⟨pre, post, tasks, h⟩
  | succ n ih =>
    rcases ih with ⟨pre, post, tasks, h⟩ | ⟨m, hm, hover⟩
    · cases tasks with
      | cons task tasks =>
        obtain ⟨new, hnext⟩ := h.step_on
        exact .inl ⟨pre, post, _, hnext⟩
      | nil =>
        cases post with
        | nil => exact .inr ⟨n + 1, Nat.le_refl _, h.step_last⟩
        | cons l later =>
          rcases h.step_turn with hover | ⟨tasks, hnext⟩
          · exact .inr ⟨n + 1, Nat.le_refl _, hover⟩
          · exact .inl ⟨_, later, tasks, hnext⟩
    · exact .inr ⟨m, Nat.le_succ_of_le hm, hover⟩

theorem fannedOut_of_returns (h : UnderWay start id f c i rest 0 pre post tasks)
    (hreturns : start.Returns rest n) : FannedOut start id f c i rest n := by
  rcases h.iterate n with ⟨pre, post, tasks, hunder⟩ | ⟨m, hm, hover⟩
  · have hlength := congrArg List.length (hunder.agenda.symm.trans hreturns.1)
    simp only [List.length_append, List.length_cons] at hlength
    omega
  · rcases Nat.lt_or_eq_of_le hm with hlt | rfl
    · exact absurd hover.returned (hreturns.2 m hlt)
    · exact hover

end UnderWay

section Whole

variable {r : Retrieval} {after : List Task}

theorem accounts_at_start (hr : start.retrievals[id]? = some r) :
    Accounts start id c i [] start [] := by
  have hfailures : start.failures[id]? = some r.fanOut.failures := by
    rw [failures, List.getElem?_map, hr, Option.map_some]
  exact ⟨by simp, by simp, _, _, hfailures, hfailures, rfl⟩

theorem fannedOut_of_beginFanOut (hr : s.retrievals[id]? = some r)
    (hstart : start = s.beginFanOut id r.fanOut c i after)
    (hreturns : start.Returns (after ++ s.agenda) n) :
    FannedOut start id r.fanOut c i (after ++ s.agenda) n := by
  have hr' : start.retrievals[id]? = some r := hstart ▸ hr
  cases hrun : r.fanOut.isRunning with
  | true =>
    have hagenda : start.agenda =
        .fanOut id r.fanOut.listeners c i :: (after ++ s.agenda) := by
      simp [hstart, beginFanOut, hrun, push]
    have hunder : UnderWay start id r.fanOut c i (after ++ s.agenda) 0 [] r.fanOut.listeners [] :=
      ⟨hagenda, rfl, rfl, by simp [turns], fun _ => accounts_at_start hr'⟩
    exact hunder.fannedOut_of_returns hreturns
  | false =>
    have hagenda : start.agenda = after ++ s.agenda := by
      simp [hstart, beginFanOut, hrun, push]
    obtain rfl : n = 0 := Nat.eq_zero_of_not_pos fun hpos => hreturns.2 0 hpos hagenda
    have hstopped : start.fansOut id = false := by simp [fansOut, hr', hrun]
    exact ⟨hagenda, .of_turns List.nil_prefix (.inr hstopped) (by simp [turns]),
      fun _ => accounts_at_start hr'⟩

theorem exists_returns (hstart : start = s.beginFanOut id r.fanOut c i after)
    (hscripts : s.Scripted Command.CallsNobody) : ∃ n, start.Returns (after ++ s.agenda) n := by
  have hends : ∃ n, (step^[n] start).agenda = after ++ s.agenda := by
    have hagenda : start.agenda =
        (if r.fanOut.isRunning then [.fanOut id r.fanOut.listeners c i] else []) ++
          (after ++ s.agenda) := by
      rw [hstart, ← List.append_assoc]
      rfl
    refine exists_ended (fun t ht => ?_) (hstart ▸ hscripts) hagenda
    split at ht
    · exact List.mem_singleton.1 ht ▸ ends_fanOut id c i _
    · cases ht
  classical
  exact ⟨Nat.find hends, Nat.find_spec hends, fun m hm => Nat.find_min hends hm⟩

/-- Who is called when content is handed to the fan-out of a retrieval. -/
theorem fan_out_calls_in_turn (hr : s.retrievals[id]? = some r)
    (hstart : start = s.beginFanOut id r.fanOut c i after) :
    (∀ n, start.Returns (after ++ s.agenda) n →
      CallsInTurn start id r.fanOut c i (after ++ s.agenda) n) ∧
    (s.Scripted Command.CallsNobody → ∃ n, start.Returns (after ++ s.agenda) n ∧
      (step^[n] start).deliveries = s.deliveries ++
        (start.callTurns id (after ++ s.agenda).length n).map (fun t => (t.listener, c, i)) ∧
      (∃ r', (step^[n] start).retrievals[id]? = some r' ∧ r'.fanOut.failures =
        r.fanOut.failures +
          (start.callTurns id (after ++ s.agenda).length n).countP Turn.isFailure) ∧
      ∀ a later, after = .answer a :: later → (step^[n + 1] start).answer = a) := by
  refine ⟨fun n hreturns => (fannedOut_of_beginFanOut hr hstart hreturns).turns, fun hscripts => ?_⟩
  obtain ⟨n, hreturns⟩ := exists_returns hstart hscripts
  have hscripts' : start.Scripted Command.CallsNobody := hstart ▸ hscripts
  obtain ⟨-, hdeliveries, before, now, hbefore, hnow, hcount⟩ :=
    (fannedOut_of_beginFanOut hr hstart hreturns).accounts hscripts'
  refine ⟨n, hreturns, ?_, ?_, ?_⟩
  · rw [hdeliveries, hstart]
    rfl
  · have hr' : start.retrievals[id]? = some r := hstart ▸ hr
    rw [failures, List.getElem?_map, hr', Option.map_some] at hbefore
    rw [failures, List.getElem?_map] at hnow
    obtain ⟨r', hr'', hnow⟩ := Option.map_eq_some_iff.1 hnow
    refine ⟨r', hr'', ?_⟩
    rw [hnow, Option.some.inj hbefore]
    exact hcount
  · rintro a later rfl
    have hagenda : (step^[n] start).agenda = .answer a :: (later ++ s.agenda) := hreturns.1
    rw [Function.iterate_succ_apply', step_cons hagenda]
    rfl

end Whole

def sampleFollowers : FanOut :=
  { phase := .running, listeners := ["a", "b", "c", "d", "e"] }

def sampleFanning : Session :=
  { retrievals :=
      [{ discovery := Discovery.created, owner := .fanOut, fanOut := sampleFollowers }]
    scripts :=
      [("a", { calls := [[⟨"1", .removeListener .first "c"⟩, ⟨"2", .addListener .first "f"⟩]]
               outcomes := [.crash] }),
        ("b", { outcomes := [.error] }),
        ("d", { calls := [[⟨"3", .stop .first⟩]] })] }

def sampleFanned : Session :=
  sampleFanning.beginFanOut 0 sampleFollowers (sampleContent 7) { name := ⟨[[1]]⟩ }
    [.answer .done]

theorem returns_sample : sampleFanned.Returns [.answer .done] 15 := by
  have hlengths : (List.range 15).map (fun m => (step^[m] sampleFanned).agenda.length) =
      [2, 7, 6, 5, 4, 3, 2, 3, 2, 2, 4, 5, 4, 3, 2] := by cbv
  refine ⟨by cbv, fun m hm hagenda => ?_⟩
  have hmem : (step^[m] sampleFanned).agenda.length ∈
      (List.range 15).map fun m => (step^[m] sampleFanned).agenda.length :=
    List.mem_map_of_mem (List.mem_range.2 hm)
  rw [hlengths, hagenda] at hmem
  simp at hmem

theorem fan_out_calls_in_turn_sample :
    sampleFanned.Returns [.answer .done] 15 ∧
    CallsInTurn sampleFanned 0 sampleFollowers (sampleContent 7) { name := ⟨[[1]]⟩ }
      [.answer .done] 15 ∧
    (sampleFanned.turns 0 1 15).map Turn.listener = ["a", "b", "c", "d", "e"] ∧
    (step^[15] sampleFanned).deliveries.map (·.1) = ["a", "b", "d"] ∧
    (∃ r', (step^[15] sampleFanned).retrievals[0]? = some r' ∧ r'.fanOut.failures = 2) ∧
    (step^[16] sampleFanned).answer = .done := by
  have hr : sampleFanning.retrievals[0]? =
      some { discovery := Discovery.created, owner := .fanOut, fanOut := sampleFollowers } := rfl
  have hstart : sampleFanned = sampleFanning.beginFanOut 0 sampleFollowers (sampleContent 7)
      { name := ⟨[[1]]⟩ } [.answer .done] := rfl
  have hscripts : sampleFanning.Scripted Command.CallsNobody := by
    simp [Scripted, sampleFanning, Command.CallsNobody]
  obtain ⟨hturns, hcounts⟩ := fan_out_calls_in_turn hr hstart
  obtain ⟨n, hreturns, hdeliveries, ⟨r', hr', hfailures⟩, hanswer⟩ := hcounts hscripts
  obtain rfl : n = 15 := hreturns.unique returns_sample
  have hcalled : (sampleFanned.callTurns 0 1 15).map Turn.listener = ["a", "b", "d"] := by cbv
  have hfailed : (sampleFanned.callTurns 0 1 15).countP Turn.isFailure = 2 := by cbv
  refine ⟨returns_sample, hturns 15 returns_sample, by cbv, ?_, ⟨r', hr', ?_⟩,
    hanswer .done [] rfl⟩
  · rw [hdeliveries, List.map_append, List.map_map]
    exact hcalled
  · rw [hfailures]
    exact (Nat.zero_add _).trans hfailed

end NamedContent.Session
