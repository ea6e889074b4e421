import NamedContent.Proofs.DeliverySafety
import NamedContent.Proofs.TendedSessions

/-! The transport conserves Interests, whoever calls it. Listeners that are called back may publish,
express, cancel and expire in their turn, and so may retrievals; commands may come in at any
moment. A step calls the transport once at most, and what an expiry is going to answer stands on
the agenda from the moment at which Interests are taken away until it has called back for each. -/

namespace NamedContent

open Transport (Op)

namespace Command

variable {c : Command}

theorem op?_of_not_byTransport (h : ¬ c.ByTransport) (s : Session) : c.op? s = none := by
  cases c <;> first | rfl | exact absurd True.intro h

theorem Starts.op?_eq_none (h : c.Starts) (s : Session) : c.op? s = none := by
  cases c <;> first | rfl | exact h.elim

theorem Closes.op?_eq_none (h : c.Closes) (s : Session) : c.op? s = none := by
  cases c <;> first | rfl | exact h.elim

end Command

namespace Session

variable {s s' : Session} {task : Task} {op : Option (Op Handler)}

/-- By a step that takes `task` from the agenda the transport has been called as the task says. What
an expiry is going to answer stands on the agenda until it does. -/
structure Performs (s : Session) (task : Task) (s' : Session) : Prop where
  transport : s'.transport = (task.op? s).elim s.transport fun op => op.run s.transport
  pledges : pledges s'.agenda + task.returned?.toList.sum =
    task.pledge + pledges s.agenda + (task.op? s).elim 0 fun op => op.expiring s.transport

theorem Performs.of_orders (horders : task.Orders s op)
    (htransport : s'.transport = op.elim s.transport fun op => op.run s.transport)
    (tasks : List Task) (hagenda : s'.agenda = tasks ++ s.agenda)
    (hpledges : NamedContent.pledges tasks = op.elim 0 fun op => op.expiring s.transport) :
    Performs s task s' := by
  obtain ⟨hop, hpledge, hreturned⟩ := horders
  refine ⟨hop ▸ htransport, ?_⟩
  rw [hagenda, pledges_append, hpledges, hpledge, hreturned, hop]
  simp [Nat.add_comm]

theorem pledges_steps (s : Session) (l : ListenerId) (n : Nat) :
    pledges (((s.script l).stepsAt n).flatMap fun step =>
      [.command step.command, .record step.label]) = 0 := by
  refine pledges_eq_zero fun t ht => ?_
  obtain ⟨step, -, ht⟩ := List.mem_flatMap.1 ht
  simp only [List.mem_cons, List.not_mem_nil, or_false] at ht
  rcases ht with rfl | rfl <;> rfl

theorem Performs.call (horders : task.Orders s none) (l : ListenerId) (e : Event)
    {after : Outcome → List Task} (hafter : ∀ outcome, NamedContent.pledges (after outcome) = 0) :
    Performs s task (s.call l e after) := by
  refine .of_orders horders rfl _ rfl ?_
  rw [pledges_append, hafter, pledges_steps]
  rfl

theorem Executed.performs (h : Executed s task s') : Performs s task s' := by
  cases h with
  | replies a horders => exact .of_orders horders rfl [] rfl rfl
  | records => exact .of_orders ⟨rfl, rfl, rfl⟩ rfl [] rfl rfl
  | @commands c t tasks a haside htasks =>
    refine .of_orders ⟨rfl, rfl, rfl⟩ haside.run tasks rfl ?_
    rw [pledges_eq_zero fun t ht => (htasks t ht).pledge_eq]
    exact haside.expiring.symm
  | @asks c tasks hc htasks =>
    refine .of_orders ⟨Command.op?_of_not_byTransport hc s, rfl, rfl⟩ rfl tasks rfl ?_
    exact pledges_eq_zero fun t ht => (htasks t ht).2.pledge_eq
  | publishes hpublishes ht hafter =>
    refine .of_orders (hpublishes.orders s) (congrArg Prod.fst ht).symm _ rfl ?_
    exact pledges_eq_zero fun t ht => (hafter t ht).plain.pledge_eq
  | publishAnswers hpublishes ht hafter =>
    refine .of_orders (hpublishes.orders s) (congrArg Prod.fst ht).symm (_ :: _) rfl ?_
    exact pledges_eq_zero (List.forall_mem_cons.2 ⟨rfl, fun t ht => (hafter t ht).plain.pledge_eq⟩)
  | expires => exact .of_orders ⟨rfl, rfl, rfl⟩ rfl [_] rfl (Nat.add_zero _)
  | timesOutNext p ps n =>
    refine ⟨rfl, ?_⟩
    simp [Session.push, Task.op?, Task.pledge, Task.returned?]
  | expired n =>
    refine ⟨rfl, ?_⟩
    simp [Session.reply, Task.op?, Task.pledge, Task.returned?, Nat.add_comm]
  | callsBack l hback => exact .call (hback.orders s) l _ fun _ => rfl
  | cancels => exact .of_orders ⟨rfl, rfl, rfl⟩ rfl [_] rfl rfl
  | expressRefused rest anyRefused ht =>
    exact .of_orders ⟨rfl, rfl, rfl⟩ (congrArg Prod.fst ht).symm [_] rfl rfl
  | expressWaits rest anyRefused ht =>
    exact .of_orders ⟨rfl, rfl, rfl⟩ (congrArg Prod.fst ht).symm [_, _] rfl rfl
  | expressAnswered rest anyRefused ht =>
    exact .of_orders ⟨rfl, rfl, rfl⟩ (congrArg Prod.fst ht).symm [_, _, _] rfl rfl
  | @settleKeeps id i r hr hkeep =>
    have horders : Task.Orders s none (.settle id i) := ⟨by simp [Task.op?, hr, hkeep], rfl, rfl⟩
    exact .of_orders horders rfl [] rfl rfl
  | @settleCancels id i r hr hkeep =>
    have horders : Task.Orders s (some (.cancel i (.retrieval id))) (.settle id i) :=
      ⟨by simp [Task.op?, hr, hkeep], rfl, rfl⟩
    exact .of_orders horders rfl [] rfl rfl
  | arrives c i =>
    refine .of_orders ⟨rfl, rfl, rfl⟩ rfl (_ :: _) rfl ?_
    split <;> rfl
  | timesOut | refreshes | refreshesOnce | stopsNext =>
    exact .of_orders ⟨rfl, rfl, rfl⟩ rfl _ rfl rfl
  | handsTo c i hr hrun howner => exact .call ⟨rfl, rfl, rfl⟩ _ _ fun _ => rfl
  | handsOver =>
    refine .of_orders ⟨rfl, rfl, rfl⟩ rfl _ rfl ?_
    split <;> rfl
  | fansOut l =>
    refine .call ⟨rfl, rfl, rfl⟩ l _ fun outcome => ?_
    split <;> rfl
  | skips => exact .of_orders ⟨rfl, rfl, rfl⟩ rfl [_] rfl rfl
  | countsFailure | dropsOwner => exact .of_orders ⟨rfl, rfl, rfl⟩ rfl [] rfl rfl
  | starts hc => exact .of_orders ⟨hc.op?_eq_none s, rfl, rfl⟩ rfl [_] rfl rfl
  | stops htends => exact .of_orders (htends.orders s) rfl [_, _] rfl rfl
  | tends a htends => exact .of_orders (htends.orders s) rfl [] rfl rfl
  | registers => exact .of_orders ⟨rfl, rfl, rfl⟩ rfl [_, _] rfl rfl
  | closes hc =>
    rw [closeRegistry_eq]
    exact .of_orders ⟨hc.op?_eq_none s, rfl, rfl⟩ rfl [_, _] rfl rfl
  | keeps n id _ hfind =>
    rw [keep, hfind]
    exact .of_orders ⟨rfl, rfl, rfl⟩ rfl [] rfl rfl

def op? (s : Session) : Option (Op Handler) :=
  match s.agenda with
  | [] => none
  | task :: rest => task.op? (s.taken rest)

def returned? (s : Session) : Option Nat := s.agenda.head?.bind Task.returned?

/-- A step calls the transport once at most; and what an expiry takes away it answers in the end. -/
theorem step_performs (s : Session) :
    s.step.transport = (s.op?.elim s.transport fun op => op.run s.transport) ∧
      pledges s.step.agenda + s.returned?.toList.sum =
        pledges s.agenda + s.op?.elim 0 fun op => op.expiring s.transport := by
  cases hagenda : s.agenda with
  | nil =>
    rw [step_of_nil hagenda, op?, hagenda, returned?, hagenda]
    exact ⟨rfl, rfl⟩
  | cons task rest =>
    obtain ⟨htransport, hpledges⟩ := (step_executed hagenda).performs
    rw [op?, hagenda, returned?, hagenda, pledges_cons]
    exact ⟨htransport, hpledges⟩

/-- A run, with the account of a numbered transport that is called in the same way, and with what
expiries have answered. Commands come in from outside and from whoever is being called. -/
inductive Traced (start : Session) : Numbered Handler → List Nat → Session → Prop where
  | start : Traced start { transport := { store := start.transport.store
                                          refusals := start.transport.refusals } } [] start
  | command {b : Numbered Handler} {vs : List Nat} {s : Session} (h : Traced start b vs s)
      (c : Command) (log : List Event) : Traced start b vs { s.push [.command c] with log }
  | step {b : Numbered Handler} {vs : List Nat} {s : Session} (h : Traced start b vs s) :
      Traced start (s.op?.elim b b.perform) (s.returned?.toList ++ vs) s.step

variable {start : Session} {b : Numbered Handler} {vs : List Nat}

/-- The account agrees with the transport, and what has expired has been answered, or is yet to
be. -/
structure Balanced (b : Numbered Handler) (vs : List Nat) (s : Session) : Prop where
  transport : b.transport.unnumbered = s.transport
  accounted : b.Accounted
  expired : vs.sum + pledges s.agenda = b.count .expired

theorem Balanced.step (h : Balanced b vs s) :
    Balanced (s.op?.elim b b.perform) (s.returned?.toList ++ vs) s.step := by
  obtain ⟨htransport, hpledges⟩ := s.step_performs
  have hexpired := h.expired
  rw [← h.transport] at htransport hpledges
  cases hop : s.op? with
  | none =>
    rw [hop] at htransport hpledges
    refine ⟨htransport.symm, h.accounted, ?_⟩
    rw [List.sum_append_nat]
    simp only [Option.elim_none] at hpledges ⊢
    omega
  | some op =>
    rw [hop] at htransport hpledges
    refine ⟨?_, h.accounted.perform op, ?_⟩
    · rw [htransport]
      exact b.unnumbered_perform op
    · rw [List.sum_append_nat]
      simp only [Option.elim_some] at hpledges ⊢
      rw [b.count_expired_perform op]
      omega

theorem Traced.balanced (h : Traced start b vs s) {store : List Content} {refusals : Nat}
    (hfresh : start.transport = { store, refusals }) (hidle : start.agenda = []) :
    Balanced b vs s := by
  induction h with
  | start =>
    refine ⟨?_, .of_fresh _ _, by rw [hidle]; rfl⟩
    rw [hfresh]
    rfl
  | command _ c log ih =>
    obtain ⟨htransport, haccounted, hexpired⟩ := ih
    refine ⟨htransport, haccounted, ?_⟩
    show _ + pledges (.command c :: _) = _
    rw [pledges_cons, ← hexpired]
    simp [Task.pledge]
  | step _ ih => exact ih.step

/-- Whenever all calls have returned, what the transport has ever accepted was answered, cancelled
or expired, or waits; and each accepted expression met with just one of these. -/
theorem Traced.conserves_interests (h : Traced start b vs s) {store : List Content}
    {refusals : Nat} (hfresh : start.transport = { store, refusals }) (hidle : start.agenda = [])
    (hreturned : s.agenda = []) :
    s.transport.expressed =
      s.transport.delivered + s.transport.cancelled + vs.sum + s.transport.pending.length ∧
    s.transport = b.transport.unnumbered ∧
    b.count .answered = s.transport.delivered ∧ b.count .cancelled = s.transport.cancelled ∧
    b.count .expired = vs.sum ∧
    ∀ n < s.transport.expressed,
      n ∈ b.transport.numbers ∧ (∀ f, (n, f) ∉ b.fates) ∨
        n ∉ b.transport.numbers ∧ ∃ f, (n, f) ∈ b.fates ∧
          ∀ f', (n, f') ∈ b.fates → f' = f := by
  obtain ⟨htransport, haccounted, hexpired⟩ := h.balanced hfresh hidle
  have hanswered : b.count .expired = vs.sum := by
    rw [← hexpired, hreturned]
    rfl
  have hpending : b.transport.unnumbered.pending.length = b.transport.pending.length :=
    List.length_map _
  rw [← htransport]
  refine ⟨?_, rfl, haccounted.answered, haccounted.cancelled, hanswered,
    fun n hn => haccounted.one_fate hn⟩
  rw [hpending, ← hanswered]
  exact haccounted.expressed_eq

def trace (b : Numbered Handler) (vs : List Nat) (s : Session) :
    Nat → Numbered Handler × List Nat × Session
  | 0 => (b, vs, s)
  | n + 1 => trace (s.op?.elim b b.perform) (s.returned?.toList ++ vs) s.step n

theorem Traced.trace (h : Traced start b vs s) (n : Nat) :
    Traced start (s.trace b vs n).1 (s.trace b vs n).2.1 (s.trace b vs n).2.2 := by
  induction n generalizing b vs s with
  | zero => exact h
  | succ n ih => exact ih h.step

theorem Traced.commands (h : Traced start b vs s) (cs : List Command) :
    Traced start b vs (cs.foldr (fun c s => s.push [.command c]) s) := by
  induction cs with
  | nil => exact h
  | cons c cs ih => exact ih.command c _

def sampleWanted : InterestRef := .given { name := ⟨[[1]]⟩ }

def sampleBusy : Session :=
  { scripts :=
      [("l", { calls :=
        [[⟨"1", .cancelDirectly "l" .first sampleWanted⟩,
            ⟨"2", .expressDirectly "l" .first sampleWanted⟩], [],
          [⟨"3", .expressDirectly "l" .first (.given { name := ⟨[[2]]⟩ })⟩,
            ⟨"4", .expireAll⟩]] })] }

def sampleTrace : Numbered Handler × List Nat × Session :=
  trace {} []
    ([.refuseNext 1, .expressDirectly "l" .first sampleWanted,
      .expressDirectly "l" .first sampleWanted, .expressDirectly "l" .first sampleWanted,
      .expressDirectly "l" .first sampleWanted, .publish (sampleContent 7), .expireAll,
      .expressDirectly "l" .first (.given { name := ⟨[[3]]⟩ })].foldr
        (fun c s => s.push [.command c]) sampleBusy) 26

theorem conserves_interests_sample :
    Traced sampleBusy sampleTrace.1 [1, 1] sampleTrace.2.2 ∧ sampleTrace.2.2.agenda = [] ∧
    sampleTrace.1.fates =
      [(4, .expired), (2, .expired), (3, .answered), (1, .cancelled), (0, .answered)] ∧
    sampleTrace.1.transport.numbers = [5] ∧ sampleTrace.2.2.transport.expressed = 6 ∧
    sampleTrace.2.2.transport.expressed =
      sampleTrace.2.2.transport.delivered + sampleTrace.2.2.transport.cancelled + [1, 1].sum +
        sampleTrace.2.2.transport.pending.length := by
  have hanswered : sampleTrace.2.1 = [1, 1] := by cbv
  have htraced : Traced sampleBusy sampleTrace.1 sampleTrace.2.1 sampleTrace.2.2 :=
    (Traced.start.commands _).trace 26
  have hreturned : sampleTrace.2.2.agenda = [] := by cbv
  have hfresh : sampleBusy.transport = { store := [], refusals := 0 } := rfl
  rw [hanswered] at htraced
  obtain ⟨hexpressed, -⟩ := htraced.conserves_interests hfresh rfl hreturned
  exact ⟨htraced, hreturned, by cbv, by cbv, by cbv, hexpressed⟩

end Session

end NamedContent
