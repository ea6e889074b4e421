import NamedContent.Proofs.RegistryTallies

/-! What each call does to a registry that stands for a set of pairs, if listeners take no steps.
Whatever the transport is told or asked to refuse, the call returns, it is answered as the pairs
have it, and the registry stands for what that makes of the pairs. -/

namespace NamedContent.Session

variable {s s' : Session} {M : Pairs} {n : Name} {l : ListenerId} {k : Nat} {c : Command}

section Calls

structure Calm (s : Session) : Prop where
  lawful : s.Lawful
  silent : s.Scripted fun _ => False
  tasks : ∀ task ∈ s.agenda, task.Mild s.transport.store

theorem Calm.step (h : s.Calm) : s.LeavesAlone s.step ∧ s.step.Calm := by
  obtain ⟨hleaves, htasks⟩ := mild_step h.lawful h.tasks fun _ l _ => h.silent.mute l
  refine ⟨hleaves, h.lawful.step, ?_, htasks⟩
  rw [Scripted, hleaves.scripts]
  exact h.silent

theorem Calm.finish (h : s.Calm) (fuel : Nat) : s.LeavesAlone (s.finish fuel) :=
  (finish_induction (K := fun s' => s.LeavesAlone s' ∧ s'.Calm)
    (fun hkept => ⟨hkept.1.trans hkept.2.step.1, hkept.2.step.2⟩) ⟨.refl s, h⟩ fuel).1

def Replies (a : Answer) (s : Session) : Prop :=
  s.agenda = [] ∧ s.answer = a ∨ ∃ pre, s.agenda = pre ++ [.answer a]

theorem Replies.step (h : s.Replies a) : s.step.Replies a := by
  rcases h with ⟨hdone, ha⟩ | ⟨pre, hagenda⟩
  · rw [step_of_nil hdone]
    exact .inl ⟨hdone, ha⟩
  · cases pre with
    | nil =>
      rw [step_cons hagenda]
      exact .inl ⟨rfl, rfl⟩
    | cons task pre =>
      have hscripted : (s.taken (pre ++ [.answer a])).Scripted fun _ => True :=
        fun _ _ _ _ _ _ => True.intro
      obtain ⟨-, tasks, hagenda', -⟩ := (step_executed hagenda).brings hscripted
      exact .inr ⟨tasks ++ pre, by rw [hagenda', List.append_assoc]; rfl⟩

theorem Replies.returns (h : (s.called c).step.Replies a)
    (hreturned : (s.give fuel c).agenda = []) : (s.give fuel c).answer = a := by
  obtain ⟨fuel', hgive⟩ := give_eq_finish hreturned
  rw [hgive] at hreturned ⊢
  rcases finish_induction (K := Replies a) (fun h => h.step) h fuel' with ⟨-, ha⟩ | ⟨pre, hagenda⟩
  · exact ha
  · simp [hreturned] at hagenda

/-- The call returns, with an answer that the pairs allow and with the registry standing for what
that makes of the pairs. -/
def Obeys (s : Session) (M : Pairs) (c : Command) : Prop :=
  (∃ fuel, (s.give fuel c).agenda = []) ∧
  ∀ fuel, (s.give fuel c).agenda = [] →
    M.Allows c (s.give fuel c).answer ∧ (s.give fuel c).Tallies (M.next c (s.give fuel c).answer)

theorem Calm.obeys (h : (s.called c).step.Calm) (hlawful : s.Lawful) (M' : Pairs)
    (htallies : (s.called c).step.Tallies M')
    (hnext : ∀ fuel, (s.give fuel c).agenda = [] →
      M.Allows c (s.give fuel c).answer ∧ M.next c (s.give fuel c).answer = M') : s.Obeys M c := by
  refine ⟨give_ends hlawful h.silent fun t ht => .inl (h.tasks t ht), fun fuel hreturned => ?_⟩
  obtain ⟨hallows, hnext⟩ := hnext fuel hreturned
  obtain ⟨fuel', hgive⟩ := give_eq_finish hreturned
  refine ⟨hallows, hnext ▸ ?_⟩
  have hleaves := h.finish fuel'
  rw [hgive]
  exact htallies.of_eq hleaves.registry hleaves.standings

theorem calm_called (hlawful : s.Lawful) (hsilent : s.Scripted fun _ => False)
    (htasks : ∀ task ∈ (s.called c).step.agenda, task.Mild (s.called c).step.transport.store) :
    (s.called c).step.Calm := by
  have hcalled : (s.called c).Lawful := ⟨hlawful.retrievals, hlawful.registry⟩
  refine ⟨hcalled.step, ?_, htasks⟩
  rw [Scripted, step_scripts]
  exact hsilent

def Winds (s : Session) (task : Task) : Prop :=
  task.Mild s.transport.store ∨ ∃ ids, task = .stopAll ids

theorem Executed.winds {task : Task} (h : Executed s task s') (hwinds : s.Winds task)
    (hsilent : s.Scripted fun _ => False) (hlawful : s.Lawful) :
    s'.transport.store = s.transport.store ∧ s'.registry = s.registry ∧
      s'.retrievals.length = s.retrievals.length ∧
      ∃ tasks, s'.agenda = tasks ++ s.agenda ∧ ∀ t ∈ tasks, s.Winds t := by
  rcases hwinds with hmild | ⟨ids, rfl⟩
  · obtain ⟨hleaves, tasks, hagenda, htasks⟩ := h.mild hmild (fun l _ => hsilent.mute l) hlawful
    have hlength := congrArg List.length hleaves.standings
    rw [List.length_map, List.length_map] at hlength
    exact ⟨hleaves.store, hleaves.registry, hlength, tasks, hagenda, fun t ht => .inl (htasks t ht)⟩
  · cases h with
    | replies => exact ⟨rfl, rfl, rfl, [], rfl, by simp⟩
    | @stopsNext id r ids hr =>
      exact ⟨rfl, rfl, s.length_act id _ s.registry _ _, [_, _], rfl, by simp [Winds, Task.Mild]⟩
    | publishes htask | publishAnswers htask | stops htask | tends a htask => cases htask
    | callsBack l htask => cases htask

/-- The registry has been closed, and what it listed has been stopped or is yet to be. -/
structure Closing (s : Session) : Prop where
  lawful : s.Lawful
  silent : s.Scripted fun _ => False
  placed : s.Placed
  cleared : ∃ registry, s.registry = some registry ∧ registry.entries = []
  halted : ∀ k < s.retrievals.length, s.Halted k
  winds : ∀ task ∈ s.agenda, s.Winds task

theorem Closing.step (h : s.Closing) : s.step.Closing := by
  cases hagenda : s.agenda with
  | nil => rwa [step_of_nil hagenda]
  | cons task rest =>
    have htasks : ∀ t ∈ task :: rest, s.Winds t := hagenda ▸ h.winds
    have hwinds : (s.taken rest).Winds task := htasks task List.mem_cons_self
    obtain ⟨hstore, hregistry, hlength, tasks, hagenda', htasks'⟩ :=
      (step_executed hagenda).winds hwinds h.silent ⟨h.lawful.retrievals, h.lawful.registry⟩
    refine ⟨h.lawful.step, ?_, h.placed.step, ?_, fun k hk => ?_, fun t ht => ?_⟩
    · rw [Scripted, step_scripts]
      exact h.silent
    · rw [hregistry]
      exact h.cleared
    · exact (h.halted k (hlength ▸ hk)).step h.lawful h.placed
    · rw [Winds, hstore]
      rw [hagenda', List.mem_append] at ht
      exact ht.elim (htasks' t) fun ht => htasks t (List.mem_cons_of_mem task ht)

theorem Closing.tallies (h : s.Closing) (hdone : s.agenda = []) : s.Tallies ∅ := by
  obtain ⟨registry, hregistry, hentries⟩ := h.cleared
  refine ⟨⟨registry, hregistry, .empty hentries _⟩, fun k hk _ => ?_⟩
  rcases h.halted k hk with hstopped | ⟨-, task, htask, -⟩
  · exact hstopped
  · simp [hdone] at htask

section Commands

variable (h : s.Tallies M) (hlawful : s.Lawful) (hsilent : s.Scripted fun _ => False)

include h hlawful hsilent

theorem Tallies.obeys_of_same (hregistry : (s.called c).step.registry = s.registry)
    (hretrievals : (s.called c).step.retrievals = s.retrievals)
    (htasks : ∀ task ∈ (s.called c).step.agenda, task.Mild (s.called c).step.transport.store)
    (hnext : ∀ fuel, (s.give fuel c).agenda = [] →
      M.Allows c (s.give fuel c).answer ∧ M.next c (s.give fuel c).answer = M) : s.Obeys M c :=
  (calm_called hlawful hsilent htasks).obeys hlawful M
    (h.of_eq hregistry (congrArg (List.map Retrieval.standing) hretrievals)) hnext

theorem Tallies.obeys_of_reply (hstep : (s.called c).step = ((s.called c).taken []).reply a)
    (hnext : M.Allows c a ∧ M.next c a = M) : s.Obeys M c := by
  have hreplies : (s.called c).step.Replies a := .inl ⟨by rw [hstep]; rfl, by rw [hstep]; rfl⟩
  refine h.obeys_of_same hlawful hsilent ?_ ?_ ?_ fun fuel hreturned => ?_
  · rw [hstep]
    rfl
  · rw [hstep]
    rfl
  · rw [hstep]
    exact List.forall_mem_nil _
  · rwa [hreplies.returns hreturned]

theorem Tallies.obeys_publish (c : Content) : s.Obeys M (.publish c) := by
  have hunchanged : ∀ a, M.Allows (.publish c) a ∧ M.next (.publish c) a = M :=
    fun _ => ⟨True.intro, rfl⟩
  have hstep : (s.called (.publish c)).step =
      ((s.called (.publish c)).taken []).publish c fun hit => [.answer (.flag hit)] := rfl
  rw [Session.publish] at hstep
  split at hstep
  · refine h.obeys_of_same hlawful hsilent ?_ ?_ ?_ fun _ _ => hunchanged _
    all_goals rw [hstep]
    · rfl
    · rfl
    · simp [push, taken, called, Task.Mild]
  · rename_i t p hp
    obtain ⟨hstore, -, -, hacc⟩ := Transport.publish_answers hp
    refine h.obeys_of_same hlawful hsilent ?_ ?_ ?_ fun _ _ => hunchanged _
    all_goals rw [hstep]
    · rfl
    · rfl
    · simp [push, taken, called, Task.Mild, hstore, hacc]

theorem Tallies.obeys_expireAll : s.Obeys M .expireAll :=
  h.obeys_of_same hlawful hsilent rfl rfl (List.forall_mem_singleton.2 True.intro) fun _ _ =>
    ⟨True.intro, rfl⟩

theorem Tallies.obeys_refuseNext (n : Nat) : s.Obeys M (.refuseNext n) :=
  h.obeys_of_same hlawful hsilent rfl rfl (by intro t ht; cases ht) fun _ _ => ⟨True.intro, rfl⟩

theorem Tallies.obeys_refreshAll (now : Time) : s.Obeys M (.refreshAll now) := by
  obtain ⟨registry, hregistry, -⟩ := h.maps
  have hstep : (s.called (.refreshAll now)).step =
      ((s.called (.refreshAll now)).taken []).push
        [.refreshAll (((s.called (.refreshAll now)).taken []).listed registry) now 0] :=
    onRegistry_some (s := (s.called (.refreshAll now)).taken []) hregistry _
  refine h.obeys_of_same hlawful hsilent ?_ ?_ ?_ fun _ _ => ⟨True.intro, rfl⟩
  all_goals rw [hstep]
  · rfl
  · rfl
  · exact List.forall_mem_singleton.2 True.intro

theorem Tallies.obeys_lookup (n : Name) : s.Obeys M (.lookup n) := by
  obtain ⟨registry, hregistry, hmaps⟩ := h.maps
  have hstep : (s.called (.lookup n)).step =
      ((s.called (.lookup n)).taken []).lookup registry n :=
    onRegistry_some (s := (s.called (.lookup n)).taken []) hregistry _
  refine h.obeys_of_reply hlawful hsilent (hstep.trans ?_) ⟨rfl, rfl⟩
  rw [Session.lookup]
  cases hfind : registry.find? n with
  | none =>
    have hnot := hmaps.find?_eq_none_iff.1 hfind
    have hnone : M.under n = ∅ := Finset.filter_eq_empty_iff.2 fun p hp heq =>
      hnot (Pairs.mem_names.2 ⟨p.2, by rwa [← heq]⟩)
    simp [hnot, hnone]
  | some id =>
    obtain ⟨r, hr, -, hne, hnodup, hmem⟩ := exists_of_find? hmaps hfind
    have hin : n ∈ M.names := by
      obtain ⟨l, hl⟩ := List.exists_mem_of_ne_nil _ hne
      exact Pairs.mem_names.2 ⟨l, (hmem l).1 hl⟩
    have hcalled : ((s.called (.lookup n)).taken []).retrievals[id]? = some r := hr
    simp only [Option.bind_some, hcalled, hin, decide_true,
      Registry.Maps.length_eq hnodup hmem]

theorem Tallies.obeys_withdraw_of_mem (hin : (n, l) ∈ M) : s.Obeys M (.withdraw n l) := by
  obtain ⟨registry, hregistry, hmaps⟩ := h.maps
  have hcalled : ((s.called (.withdraw n l)).taken []).registry = some registry := hregistry
  have hstep : (s.called (.withdraw n l)).step =
      ((s.called (.withdraw n l)).taken []).withdraw n l none := onRegistry_some hcalled _
  obtain ⟨id, hfind⟩ := Option.ne_none_iff_exists'.1 fun hnone =>
    hmaps.find?_eq_none_iff.1 hnone (Pairs.mem_names.2 ⟨l, hin⟩)
  obtain ⟨r, hr, hstanding, -, hnodup, hmem⟩ := exists_of_find? hmaps hfind
  have hl : l ∈ r.fanOut.listeners := (hmem l).2 hin
  have hflag : decide ((n, l) ∈ M) = true := decide_eq_true hin
  by_cases hlast : (r.fanOut.remove l).listeners = []
  · rw [withdraw_last_eq hcalled hfind hr hl hlast] at hstep
    have honly : ∀ l', (n, l') ∈ M → l' = l := fun l' hl' => by
      have hnone := List.filter_eq_nil_iff.1 hlast l' ((hmem l').2 hl')
      simpa using hnone
    have hcalm : (s.called (.withdraw n l)).step.Calm := by
      refine calm_called hlawful hsilent ?_
      rw [hstep]
      exact List.forall_mem_cons.2 ⟨True.intro, List.forall_mem_singleton.2 True.intro⟩
    have hreplies : (s.called (.withdraw n l)).step.Replies (.flag true) :=
      .inr ⟨[.perform id r.discovery.stop.2 false], by rw [hstep]; rfl⟩
    refine hcalm.obeys hlawful (M.erase (n, l)) ?_ fun fuel hreturned =>
      ⟨(hreplies.returns hreturned).trans (congrArg Answer.flag hflag.symm), rfl⟩
    refine h.desert hregistry hfind honly ?_ ?_ fun k hk => ?_
    all_goals rw [hstep]
    · rfl
    · exact .of_act (s := (s.called (.withdraw n l)).taken []) hr rfl _ _
    · exact (getElem?_of_ne rfl hk).trans (getElem?_of_ne (s := s) rfl hk)
  · rw [withdraw_other hcalled hfind hr hl hlast] at hstep
    have hcalm : (s.called (.withdraw n l)).step.Calm := by
      refine calm_called hlawful hsilent ?_
      rw [hstep]
      intro t ht
      cases ht
    have hreplies : (s.called (.withdraw n l)).step.Replies (.flag true) :=
      .inl ⟨by rw [hstep]; rfl, by rw [hstep]; rfl⟩
    refine hcalm.obeys hlawful (M.erase (n, l)) ?_ fun fuel hreturned =>
      ⟨(hreplies.returns hreturned).trans (congrArg Answer.flag hflag.symm), rfl⟩
    refine h.update hregistry hfind hr hstanding (f := (·.remove l)) rfl hlast
      (hnodup.filter _) (fun l' => ?_) (fun n' l' hn => ?_) ?_ ?_
    · simp [FanOut.remove, hmem, and_comm]
    · simp [hn]
    · rw [hstep]
      exact hregistry
    · rw [hstep]
      rfl

theorem Tallies.obeys_withdraw (n : Name) (l : ListenerId) : s.Obeys M (.withdraw n l) := by
  by_cases hin : (n, l) ∈ M
  · exact h.obeys_withdraw_of_mem hlawful hsilent hin
  · obtain ⟨registry, hregistry, hmaps⟩ := h.maps
    have hcalled : ((s.called (.withdraw n l)).taken []).registry = some registry := hregistry
    have hflag : M.Allows (.withdraw n l) (.flag false) := congrArg Answer.flag (by simp [hin])
    refine h.obeys_of_reply hlawful hsilent ((onRegistry_some hcalled _).trans ?_)
      ⟨hflag, Finset.erase_eq_of_notMem hin⟩
    refine withdraw_absent hcalled (fun id r hfind hr hl => ?_) fun id hfind => ?_
    · obtain ⟨r', hr', -, -, -, hmem⟩ := exists_of_find? hmaps hfind
      obtain rfl : r' = r := Option.some.inj (hr'.symm.trans hr)
      exact hin ((hmem l).1 hl)
    · obtain ⟨r, hr, -⟩ := exists_of_find? hmaps hfind
      exact ⟨r, hr⟩

theorem Tallies.obeys_close : s.Obeys M .close := by
  obtain ⟨registry, hregistry, -⟩ := h.maps
  have hstep : (s.called .close).step = ((s.called .close).taken []).closeRegistry registry :=
    onRegistry_some (s := (s.called .close).taken []) hregistry _
  have hplaced := h.placed_called .close
  have hcalled : (s.called .close).Lawful := ⟨hlawful.retrievals, hlawful.registry⟩
  have hclosing : (s.called .close).step.Closing := by
    refine ⟨hcalled.step, ?_, hplaced.step, ?_, fun k hk => ?_, ?_⟩
    · rw [Scripted, step_scripts]
      exact hsilent
    · rw [hstep, closeRegistry_eq]
      exact ⟨_, rfl, rfl⟩
    · by_cases hlists : s.Lists k
      · have hcloses : (s.called .close).Closes k := ⟨hlists, [], .inl rfl⟩
        exact hcloses.halted hplaced
      · have hlt : k < s.retrievals.length := by
          have hget := ((s.called .close).taken []).closeRegistry_getElem? registry k
          rw [← hstep, List.getElem?_eq_getElem hk] at hget
          obtain ⟨r, hr, -⟩ := Option.map_eq_some_iff.1 hget.symm
          exact (List.getElem?_eq_some_iff.1 hr).1
        have hstopped : (s.called .close).Stopped k := h.discarded k hlt hlists
        exact .inl (hstopped.step hcalled)
    · rw [hstep, closeRegistry_eq]
      simp [Winds, Task.Mild, taken]
  have hreplies : (s.called .close).step.Replies .done := .inr ⟨[_], by
    rw [hstep, closeRegistry_eq]
    rfl⟩
  refine ⟨give_ends hlawful hclosing.silent fun t ht => ?_, fun fuel hreturned => ?_⟩
  · exact (hclosing.winds t ht).imp_right .inl
  · obtain ⟨fuel', hgive⟩ := give_eq_finish hreturned
    have htallies : (s.give fuel .close).Tallies ∅ := by
      rw [hgive] at hreturned ⊢
      exact (finish_induction (fun h => h.step) hclosing fuel').tallies hreturned
    exact ⟨hreplies.returns hreturned, htallies⟩

section Express

variable {registry : Registry} {exclusions : List UInt64} {floor : Option UInt64}

omit h hlawful hsilent in
theorem called_express_failed (hregistry : s.registry = some registry)
    (hrange : ¬ SeedsInRange exclusions floor) (n : Name) (l : ListenerId) :
    ∃ fault, (s.called (.express n l exclusions floor)).step =
      ((s.called (.express n l exclusions floor)).taken []).reply (.failed fault) := by
  have hstep : (s.called (.express n l exclusions floor)).step =
      ((s.called (.express n l exclusions floor)).taken []).run (.express n l exclusions floor) :=
    rfl
  have hcalled : ((s.called (.express n l exclusions floor)).taken []).registry = some registry :=
    hregistry
  rw [Session.run, onRegistry_some hcalled] at hstep
  rw [hstep]
  split
  · exact ⟨_, rfl⟩
  · exact ⟨_, rfl⟩
  · rename_i hexclusions hfloor
    exact absurd ⟨(versionsOf_eq_ok_iff.1 hexclusions).1, (versionsOf_eq_ok_iff.1 hfloor).1⟩ hrange

theorem Tallies.obeys_express_known (hregistry : s.registry = some registry) {id : Nat}
    (hfind : registry.find? n = some id) (hrange : SeedsInRange exclusions floor)
    (l : ListenerId) : s.Obeys M (.express n l exclusions floor) := by
  obtain ⟨r, hr, hstanding, hne, hnodup, hmem⟩ := exists_of_find? (h.maps_of hregistry) hfind
  have hstep := called_express_known hregistry hfind hrange l
  have hcalm : (s.called (.express n l exclusions floor)).step.Calm := by
    refine calm_called hlawful hsilent ?_
    rw [hstep]
    intro t ht
    cases ht
  have hreplies : (s.called (.express n l exclusions floor)).step.Replies .done :=
    .inl ⟨by rw [hstep]; rfl, by rw [hstep]; rfl⟩
  refine hcalm.obeys hlawful (insert (n, l) M) ?_ fun fuel hreturned => ?_
  · have hadd : ∀ l', l' ∈ (r.fanOut.add l).listeners ↔ l' ∈ r.fanOut.listeners ∨ l' = l :=
      fun l' => r.fanOut.mem_add
    refine h.update hregistry hfind hr hstanding (f := (·.add l)) (r.fanOut.add_phase l)
      (fun hnil => ?_) (r.fanOut.nodup_add hnodup) (fun l' => ?_) (fun n' l' hn => ?_) ?_ ?_
    · have hl := (hadd l).2 (.inr rfl)
      rw [hnil] at hl
      cases hl
    · simp [hadd, hmem, or_comm]
    · simp [hn]
    · rw [hstep]
      exact hregistry
    · rw [hstep]
      rfl
  · rw [hreplies.returns hreturned]
    exact ⟨.inl rfl, rfl⟩

theorem Tallies.obeys_express_failed (hregistry : s.registry = some registry)
    (hrange : ¬ SeedsInRange exclusions floor) (n : Name) (l : ListenerId) :
    s.Obeys M (.express n l exclusions floor) := by
  obtain ⟨fault, hstep⟩ := called_express_failed hregistry hrange n l
  exact h.obeys_of_reply hlawful hsilent hstep ⟨.inr ⟨fault, rfl⟩, rfl⟩

theorem Tallies.obeys_express_new (hregistry : s.registry = some registry)
    (hnew : registry.find? n = none) (hrange : SeedsInRange exclusions floor)
    (l : ListenerId) : s.Obeys M (.express n l exclusions floor) := by
  refine ⟨express_new_ends hlawful hsilent hregistry hnew hrange l, fun fuel hreturned => ?_⟩
  obtain ⟨hduring, ⟨hanswer, hstands⟩ | ⟨hanswer, hgone⟩⟩ :=
    express_new_returns hlawful hsilent hregistry hnew hrange hreturned
  · rw [hanswer]
    exact ⟨.inl rfl, h.of_stands hregistry hnew hduring.beside hstands⟩
  · rw [hanswer]
    exact ⟨.inr ⟨_, rfl⟩, h.of_gone hregistry hduring.beside hgone⟩

theorem Tallies.obeys_express (n : Name) (l : ListenerId) (exclusions : List UInt64)
    (floor : Option UInt64) : s.Obeys M (.express n l exclusions floor) := by
  obtain ⟨registry, hregistry, -⟩ := h.maps
  by_cases hrange : SeedsInRange exclusions floor
  · cases hfind : registry.find? n with
    | some id => exact h.obeys_express_known hlawful hsilent hregistry hfind hrange l
    | none => exact h.obeys_express_new hlawful hsilent hregistry hfind hrange l
  · exact h.obeys_express_failed hlawful hsilent hregistry hrange n l

end Express

end Commands

end Calls

end NamedContent.Session
