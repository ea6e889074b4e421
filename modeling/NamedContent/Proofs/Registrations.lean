import NamedContent.Proofs.TasksAbout

/-! How a registration for a new name comes out, if listeners take no steps. The retrieval that is
made for it starts. If the transport has refused an Interest of the start, however many others wait,
were answered at once, split or expressed anew, the registration is taken back. -/

namespace NamedContent.Session

variable {s s' : Session} {task : Task} {id : Nat}

variable {s₀ : Session} {registry : Registry} {n : Name} {l : ListenerId} {tasks rest : List Task}

theorem Executed.performs_first {action : Action} {actions : List Action} {anyRefused : Bool}
    {r : Retrieval} (h : Executed s (.perform id (action :: actions) anyRefused) s')
    (hr : s.retrievals[id]? = some r) :
    ∃ tasks refused, s'.agenda = tasks ++ .perform id actions refused :: s.agenda := by
  cases h with
  | replies a horders hspares => simpa [Task.duties] using (hspares id r hr).1
  | cancels | expressRefused => exact ⟨[], _, rfl⟩
  | expressWaits => exact ⟨[_], _, rfl⟩
  | expressAnswered => exact ⟨[_, _], _, rfl⟩
  | publishes htask | publishAnswers htask | stops htask | tends a htask => cases htask
  | callsBack l htask => cases htask

structure Stands (s₀ : Session) (registry : Registry) (n : Name) (l : ListenerId) (s : Session) :
    Prop where
  registry : s.registry = some (registry.insert n s₀.retrievals.length)
  standing : (s.retrievals.map (·.standing))[s₀.retrievals.length]? = some (.running n [l])

structure Gone (s₀ : Session) (registry : Registry) (s : Session) : Prop where
  registry : s.registry = some registry
  stopped : s.Stopped s₀.retrievals.length

/-- How far a registration for a new name has come. -/
inductive Registers (s₀ : Session) (registry : Registry) (n : Name) (l : ListenerId) (s : Session) :
    Prop where
  | starts (pre : List Task) (actions : List Action) (anyRefused : Bool)
      (hagenda : s.agenda =
        pre ++ [.perform s₀.retrievals.length actions anyRefused, .rollback n l])
      (hpre : ∀ t ∈ pre, s₀.Owns t) (hstands : Stands s₀ registry n l s)
  | started (hagenda : s.agenda = [.rollback n l])
      (hanswer : s.answer = .done ∨ s.answer = .failed .refused)
      (hstands : Stands s₀ registry n l s)
  | succeeds (hagenda : s.agenda = []) (hanswer : s.answer = .done)
      (hstands : Stands s₀ registry n l s)
  | takesBack (pre : List Task) (hagenda : s.agenda = pre ++ [.answer (.failed .refused)])
      (hpre : ∀ t ∈ pre, s₀.Owns t) (hgone : Gone s₀ registry s)
  | fails (hagenda : s.agenda = []) (hanswer : s.answer = .failed .refused)
      (hgone : Gone s₀ registry s)

theorem Stands.of_eq (h : Stands s₀ registry n l s) (hregistry : s'.registry = s.registry)
    (hstandings : s'.retrievals.map (·.standing) = s.retrievals.map (·.standing)) :
    Stands s₀ registry n l s' :=
  ⟨hregistry.trans h.registry, hstandings ▸ h.standing⟩

theorem Stands.exists_retrieval (h : Stands s₀ registry n l s) :
    ∃ r, s.retrievals[s₀.retrievals.length]? = some r ∧ r.standing = .running n [l] := by
  have hstanding := h.standing
  rwa [List.getElem?_map, Option.map_eq_some_iff] at hstanding

/-- A failed start is taken back: the name is given up, and the retrieval is stopped. -/
theorem Stands.takes_back (h : Stands s₀ registry n l s) (hduring : During s₀ s)
    (hnew : registry.find? n = none) (hagenda : s.agenda = [.rollback n l])
    (hanswer : s.answer = .failed .refused) :
    During s₀ s.step ∧ Registers s₀ registry n l s.step := by
  obtain ⟨r, hr, hstanding⟩ := h.exists_retrieval
  have hlisteners : r.fanOut.listeners = [l] := congrArg Standing.listeners hstanding
  have hstep : s.step = (({ s.taken [] with registry := some registry } : Session).modifyFanOut
      s₀.retrievals.length fun f => (f.remove l).markStopped).act s₀.retrievals.length
        r.discovery.stop [.answer (.failed .refused)] := by
    have htaken : (s.taken []).answer = .failed .refused := hanswer
    rw [step_cons hagenda, doTask, rollback, htaken]
    simp only
    rw [withdraw_last_eq (s := s.taken []) h.registry (Registry.find?_insert_self hnew _) hr
      (by simp [hlisteners]) (by simp [FanOut.remove, hlisteners]), Registry.erase_insert hnew]
    rfl
  refine ⟨⟨hduring.lawful.step, ?_, ?_, ?_, ?_⟩,
    .takesBack [.perform s₀.retrievals.length r.discovery.stop.2 false] ?_ ?_ ⟨?_, ?_⟩⟩
  · rw [hstep]
    exact hduring.silent
  · rw [hstep]
    exact hduring.store
  · rw [hstep]
    exact hduring.kept
  · refine hduring.beside.trans ?_
    rw [hstep]
    have hremoved : s.Beside s₀.retrievals.length (s.modifyFanOut s₀.retrievals.length fun f =>
        (f.remove l).markStopped) := .of_modify rfl rfl
    exact hremoved.trans (.of_modify rfl rfl)
  · rw [hstep]
    rfl
  · exact List.forall_mem_singleton.2 ⟨rfl, True.intro⟩
  · rw [hstep]
    rfl
  · rw [hstep]
    exact .of_act (s := s.taken []) hr rfl _ _

theorem Stands.performs (h : Stands s₀ registry n l s) (hduring : During s₀ s)
    {actions : List Action} {anyRefused : Bool}
    (hagenda : s.agenda = [.perform s₀.retrievals.length actions anyRefused, .rollback n l]) :
    During s₀ s.step ∧ Registers s₀ registry n l s.step := by
  have hown : s₀.Owns (.perform s₀.retrievals.length actions anyRefused) := ⟨rfl, True.intro⟩
  obtain ⟨hduring', hregistry, hstandings, tasks, hagenda', htasks⟩ := hduring.step hagenda hown
  have hstands := h.of_eq hregistry hstandings
  refine ⟨hduring', ?_⟩
  cases actions with
  | nil =>
    have hstep : s.step = (s.taken [.rollback n l]).reply
        (if anyRefused then .failed .refused else .done) := step_cons hagenda
    refine .started (by rw [hstep]; rfl) ?_ hstands
    rw [hstep, reply]
    cases anyRefused <;> simp
  | cons action actions =>
    obtain ⟨r, hr, -⟩ := h.exists_retrieval
    obtain ⟨pre, refused, hagenda''⟩ := (step_executed hagenda).performs_first hr
    have hsame : (pre ++ [.perform s₀.retrievals.length actions refused]) ++ [.rollback n l] =
        tasks ++ [.rollback n l] := by
      rw [← hagenda', hagenda'', List.append_assoc]
      rfl
    rw [← List.append_cancel_right hsame] at htasks
    exact .starts pre actions refused hagenda'' (List.forall_mem_append.1 htasks).1 hstands

theorem Registers.step (h : Registers s₀ registry n l s) (hduring : During s₀ s)
    (hnew : registry.find? n = none) :
    During s₀ s.step ∧ Registers s₀ registry n l s.step := by
  cases h with
  | starts pre actions anyRefused hagenda hpre hstands =>
    cases pre with
    | nil => exact hstands.performs hduring hagenda
    | cons task pre =>
      obtain ⟨hduring', hregistry, hstandings, pre', hagenda', hpre'⟩ :=
        hduring.step_within hagenda hpre
      exact ⟨hduring', .starts pre' actions anyRefused hagenda' hpre'
        (hstands.of_eq hregistry hstandings)⟩
  | started hagenda hanswer hstands =>
    rcases hanswer with hanswer | hanswer
    · have htaken : (s.taken []).answer = .done := hanswer
      have hstep : s.step = s.taken [] := by rw [step_cons hagenda, doTask, rollback, htaken]
      rw [hstep]
      exact ⟨⟨⟨hduring.lawful.retrievals, hduring.lawful.registry⟩, hduring.silent, hduring.store,
        hduring.kept, ⟨hduring.beside.retrievals, hduring.beside.others⟩⟩,
          .succeeds rfl hanswer ⟨hstands.registry, hstands.standing⟩⟩
    · exact hstands.takes_back hduring hnew hagenda hanswer
  | succeeds hagenda hanswer hstands =>
    rw [step_of_nil hagenda]
    exact ⟨hduring, .succeeds hagenda hanswer hstands⟩
  | takesBack pre hagenda hpre hgone =>
    have hstopped := hgone.stopped.step hduring.lawful
    cases pre with
    | nil =>
      have hown : s₀.Owns (.answer (.failed .refused)) := ⟨True.intro, True.intro⟩
      obtain ⟨hduring', hregistry, -⟩ := hduring.step hagenda hown
      refine ⟨hduring', .fails ?_ ?_ ⟨hregistry.trans hgone.registry, hstopped⟩⟩
      · rw [step_cons hagenda]
        rfl
      · rw [step_cons hagenda]
        rfl
    | cons task pre =>
      obtain ⟨hduring', hregistry, -, pre', hagenda', hpre'⟩ := hduring.step_within hagenda hpre
      exact ⟨hduring', .takesBack pre' hagenda' hpre' ⟨hregistry.trans hgone.registry, hstopped⟩⟩
  | fails hagenda hanswer hgone =>
    rw [step_of_nil hagenda]
    exact ⟨hduring, .fails hagenda hanswer hgone⟩

variable {exclusions : List UInt64} {floor : Option UInt64}

def SeedsInRange (exclusions : List UInt64) (floor : Option UInt64) : Prop :=
  (∀ t ∈ exclusions, Version.InRange ⟨t⟩) ∧ ∀ t ∈ floor.toList, Version.InRange ⟨t⟩

theorem called_express (hregistry : s.registry = some registry)
    (hrange : SeedsInRange exclusions floor) (n : Name) (l : ListenerId) :
    (s.called (.express n l exclusions floor)).step =
      ((s.called (.express n l exclusions floor)).taken []).express registry n l
        (exclusions.map fun t => ⟨t⟩) ((floor.toList.map fun t => ⟨t⟩).head?) := by
  have hcalled : ((s.called (.express n l exclusions floor)).taken []).registry = some registry :=
    hregistry
  have hstep : (s.called (.express n l exclusions floor)).step =
      ((s.called (.express n l exclusions floor)).taken []).run (.express n l exclusions floor) :=
    rfl
  rw [hstep, Session.run, onRegistry_some hcalled, versionsOf_eq_ok_iff.2 ⟨hrange.1, rfl⟩,
    versionsOf_eq_ok_iff.2 ⟨hrange.2, rfl⟩]

theorem called_express_new (hregistry : s.registry = some registry)
    (hnew : registry.find? n = none) (hrange : SeedsInRange exclusions floor) (l : ListenerId) :
    ∃ d, (∀ s' : Session, (s'.started l d).standing = .running n [l]) ∧
      (s.called (.express n l exclusions floor)).step =
        ((s.called (.express n l exclusions floor)).taken []).registered registry n l d := by
  refine ⟨.create n registry.config registry.trust (exclusions.map fun t => ⟨t⟩)
    ((floor.toList.map fun t => ⟨t⟩).head?), fun s' => ?_, ?_⟩
  · simp [Retrieval.standing, started, Standing.running, Discovery.start, Discovery.create,
      Discovery.eachSlot]
  · rw [called_express hregistry hrange, express_eq_registered _ hnew]

theorem Registers.open (hlawful : s₀.Lawful) (hsilent : s₀.Scripted fun _ => False)
    (hregistry : s₀.registry = some registry) (hnew : registry.find? n = none)
    (hrange : SeedsInRange exclusions floor) (l : ListenerId) :
    During s₀ (s₀.called (.express n l exclusions floor)).step ∧
      Registers s₀ registry n l (s₀.called (.express n l exclusions floor)).step := by
  have hcalled : (s₀.called (.express n l exclusions floor)).Lawful :=
    ⟨hlawful.retrievals, hlawful.registry⟩
  have hlawful' := hcalled.step
  obtain ⟨d, hstanding, hstep⟩ := called_express_new hregistry hnew hrange l
  rw [hstep] at hlawful' ⊢
  refine ⟨⟨hlawful', hsilent, rfl, rfl, fun k hk => ?_, rfl⟩,
    .starts [] (d.start _).2 false rfl (by simp) ⟨rfl, ?_⟩⟩
  · show (s₀.retrievals ++ [_])[k]? = s₀.retrievals[k]?
    rcases Nat.lt_or_gt_of_ne hk with hlt | hgt
    · exact List.getElem?_append_left hlt
    · rw [List.getElem?_eq_none (Nat.le_of_lt hgt), List.getElem?_eq_none]
      simpa [Nat.succ_le_iff] using hgt
  · show ((s₀.retrievals ++ [_]).map Retrieval.standing)[s₀.retrievals.length]? = _
    rw [List.getElem?_map, List.getElem?_concat_length, Option.map_some, hstanding]

theorem Registers.passive (h : Registers s₀ registry n l s) (hstore : s.transport.store =
    s₀.transport.store) : ∀ t ∈ s.agenda, t.Passive s.transport.store := by
  have hpre : ∀ pre : List Task, (∀ t ∈ pre, s₀.Owns t) → ∀ t ∈ pre,
      t.Passive s.transport.store := fun pre hpre t ht => .inl (hstore ▸ (hpre t ht).2)
  cases h with
  | starts pre actions anyRefused hagenda howns =>
    rw [hagenda]
    refine List.forall_mem_append.2 ⟨hpre pre howns, ?_⟩
    simp [Task.Passive, Task.Mild]
  | started hagenda =>
    rw [hagenda]
    simp [Task.Passive]
  | takesBack pre hagenda howns =>
    rw [hagenda]
    refine List.forall_mem_append.2 ⟨hpre pre howns, ?_⟩
    simp [Task.Passive, Task.Mild]
  | succeeds hagenda | fails hagenda =>
    rw [hagenda]
    simp

section Calls

variable {fuel : Nat}

theorem express_new_ends (hlawful : s.Lawful) (hsilent : s.Scripted fun _ => False)
    (hregistry : s.registry = some registry) (hnew : registry.find? n = none)
    (hrange : SeedsInRange exclusions floor) (l : ListenerId) :
    ∃ fuel, (s.give fuel (.express n l exclusions floor)).agenda = [] := by
  obtain ⟨hduring, hregisters⟩ := Registers.open hlawful hsilent hregistry hnew hrange l
  exact give_ends hlawful hduring.silent (hregisters.passive hduring.store)

theorem express_new_returns (hlawful : s.Lawful) (hsilent : s.Scripted fun _ => False)
    (hregistry : s.registry = some registry) (hnew : registry.find? n = none)
    (hrange : SeedsInRange exclusions floor)
    (hreturned : (s.give fuel (.express n l exclusions floor)).agenda = []) :
    During s (s.give fuel (.express n l exclusions floor)) ∧
      ((s.give fuel (.express n l exclusions floor)).answer = .done ∧
          Stands s registry n l (s.give fuel (.express n l exclusions floor)) ∨
        (s.give fuel (.express n l exclusions floor)).answer = .failed .refused ∧
          Gone s registry (s.give fuel (.express n l exclusions floor))) := by
  obtain ⟨fuel', hgive⟩ := give_eq_finish hreturned
  rw [hgive] at hreturned ⊢
  obtain ⟨hduring, hregisters⟩ :=
    finish_induction (K := fun s' => During s s' ∧ Registers s registry n l s')
      (fun h => h.2.step h.1 hnew) (Registers.open hlawful hsilent hregistry hnew hrange l) fuel'
  refine ⟨hduring, ?_⟩
  cases hregisters with
  | starts pre actions anyRefused hagenda => simp [hreturned] at hagenda
  | started hagenda => simp [hreturned] at hagenda
  | succeeds _ hanswer hstands => exact .inl ⟨hanswer, hstands⟩
  | takesBack pre hagenda => simp [hreturned] at hagenda
  | fails _ hanswer hgone => exact .inr ⟨hanswer, hgone⟩

theorem called_express_known (hregistry : s.registry = some registry)
    (hfind : registry.find? n = some id) (hrange : SeedsInRange exclusions floor)
    (l : ListenerId) :
    (s.called (.express n l exclusions floor)).step =
      (((s.called (.express n l exclusions floor)).taken []).modifyFanOut id (·.add l)).reply
        .done := by
  rw [called_express hregistry hrange, express, hfind]

theorem express_known_returns (hregistry : s.registry = some registry)
    (hfind : registry.find? n = some id) (hrange : SeedsInRange exclusions floor)
    (hreturned : (s.give fuel (.express n l exclusions floor)).agenda = []) :
    s.give fuel (.express n l exclusions floor) =
      (((s.called (.express n l exclusions floor)).taken []).modifyFanOut id (·.add l)).reply
        .done := by
  obtain ⟨fuel', hgive⟩ := give_eq_finish hreturned
  rw [hgive, called_express_known hregistry hfind hrange]
  cases fuel' <;> rfl

end Calls

end NamedContent.Session
