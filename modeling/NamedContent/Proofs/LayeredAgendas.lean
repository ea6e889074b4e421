import NamedContent.Proofs.SlotState
import NamedContent.Proofs.StoppingListeners

/-! The agenda of a call to a discovery that others than its owner may use the transport of. Below
what comes up inside the call there is one task at most that the call is about. Each task may be yet
to cancel Interests, to bring back their answers, or to withdraw them once the discovery is stopped;
what is to be cancelled is to be expressed right after. -/

namespace NamedContent

def Action.express? : Action → Option Interest
  | .express i => some i
  | .cancel _ => none

def Action.cancel? : Action → Option Interest
  | .express _ => none
  | .cancel i => some i

namespace Task

/-- The Interests that the task brings back to the discovery sooner or later. -/
def owed : Task → List Interest
  | .perform _ actions _ => actions.filterMap Action.express?
  | .arrive h _ i => if h = .retrieval 0 then [i] else []
  | .timeout h i => if h = .retrieval 0 then [i] else []
  | .timeoutAll ps _ => (ps.filter (·.handler == .retrieval 0)).map (·.interest)
  | _ => []

def cancels : Task → List Interest
  | .perform _ actions _ => actions.filterMap Action.cancel?
  | _ => []

def withdrawals : Task → List Interest
  | .perform _ actions _ => actions.filterMap Action.cancel?
  | .settle _ i => [i]
  | _ => []

structure Blank (task : Task) : Prop where
  cancels_eq : task.cancels = []
  owed_eq : task.owed = []
  withdrawals_eq : task.withdrawals = []

end Task

def cancels (tasks : List Task) : List Interest := tasks.flatMap Task.cancels

def owed (tasks : List Task) : List Interest := tasks.flatMap Task.owed

def withdrawals (tasks : List Task) : List Interest := tasks.flatMap Task.withdrawals

@[simp] theorem cancels_nil : cancels [] = [] := rfl

@[simp] theorem cancels_cons (task : Task) (tasks : List Task) :
    cancels (task :: tasks) = task.cancels ++ cancels tasks := List.flatMap_cons

@[simp] theorem cancels_append (tasks tasks' : List Task) :
    cancels (tasks ++ tasks') = cancels tasks ++ cancels tasks' := List.flatMap_append

@[simp] theorem owed_nil : owed [] = [] := rfl

@[simp] theorem owed_cons (task : Task) (tasks : List Task) :
    owed (task :: tasks) = task.owed ++ owed tasks := List.flatMap_cons

@[simp] theorem owed_append (tasks tasks' : List Task) :
    owed (tasks ++ tasks') = owed tasks ++ owed tasks' := List.flatMap_append

@[simp] theorem withdrawals_nil : withdrawals [] = [] := rfl

@[simp] theorem withdrawals_cons (task : Task) (tasks : List Task) :
    withdrawals (task :: tasks) = task.withdrawals ++ withdrawals tasks := List.flatMap_cons

@[simp] theorem withdrawals_append (tasks tasks' : List Task) :
    withdrawals (tasks ++ tasks') = withdrawals tasks ++ withdrawals tasks' := List.flatMap_append

theorem express?_expressions (slots : List Slot) :
    (Slot.expressions slots).filterMap Action.express? = slots.filterMap (·.outstanding) := by
  rw [Slot.expressions, List.filterMap_filterMap]
  refine List.filterMap_congr fun s _ => ?_
  cases s.outstanding <;> rfl

theorem cancel?_expressions (slots : List Slot) :
    (Slot.expressions slots).filterMap Action.cancel? = [] := by
  rw [Slot.expressions, List.filterMap_filterMap, List.filterMap_eq_nil_iff]
  intro s _
  cases s.outstanding <;> rfl

theorem owed_expressions (slots : List Slot) :
    owed [.perform 0 (Slot.expressions slots) false] = slots.filterMap (·.outstanding) := by
  rw [owed_cons, owed_nil, List.append_nil, Task.owed, express?_expressions]

/-- Whatever is cancelled is expressed right after. -/
def Paired : List Action → Prop
  | [] => True
  | .express _ :: rest => Paired rest
  | .cancel i :: rest => rest.head? = some (.express i) ∧ Paired rest

theorem Paired.append {actions actions' : List Action} (h : Paired actions)
    (h' : Paired actions') : Paired (actions ++ actions') := by
  induction actions with
  | nil => exact h'
  | cons action rest ih =>
    cases action with
    | express i => exact ih h
    | cancel i =>
      obtain ⟨hhead, hrest⟩ := h
      refine ⟨?_, ih hrest⟩
      cases rest with
      | nil => cases hhead
      | cons next rest => exact hhead

theorem paired_expressions (slots : List Slot) : Paired (Slot.expressions slots) := by
  induction slots with
  | nil => exact True.intro
  | cons s slots ih =>
    have hcons := Slot.expressions_append [s] slots
    rw [List.singleton_append] at hcons
    rw [hcons]
    refine Paired.append ?_ ih
    cases hs : s.outstanding with
    | none => simp [Slot.expressions, hs, Paired]
    | some i => simp [Slot.expressions, hs, Paired]

theorem Paired.count_le {actions : List Action} (h : Paired actions) (j : Interest) :
    (actions.filterMap Action.cancel?).count j +
        (if actions.head? = some (.express j) then 1 else 0) ≤
      (actions.filterMap Action.express?).count j := by
  induction actions with
  | nil => simp
  | cons action rest ih =>
    cases action with
    | express i =>
      have hrest := ih h
      by_cases hij : i = j
      · simp only [List.filterMap_cons, Action.cancel?, Action.express?, List.head?_cons, hij,
          if_true, List.count_cons_self]
        omega
      · simp only [List.filterMap_cons, Action.cancel?, Action.express?, List.head?_cons,
          Option.some.injEq, Action.express.injEq, hij, if_false, List.count_cons_of_ne hij]
        omega
    | cancel i =>
      obtain ⟨hhead, hrest⟩ := h
      have hle := ih hrest
      rw [hhead] at hle
      simp only [List.filterMap_cons, Action.cancel?, Action.express?, List.head?_cons,
        Option.some.injEq, reduceCtorEq, if_false, List.count_cons, beq_iff_eq,
        Action.express.injEq] at hle ⊢
      omega

/-- The calls of one who manages the discovery, and of the transport's other users. -/
def Command.Manages : Command → Prop
  | .startDiscovery .first => True
  | .stopDiscovery .first => True
  | .refresh .first _ => True
  | .publish _ => True
  | .publishAll _ => True
  | .expireAll => True
  | .refuseNext _ => True
  | _ => False

namespace Task

/-- Tasks that come up inside a call. Answers on their way are held by the transport. -/
def Nested (d : Discovery) (t : Transport Handler) : Task → Prop
  | .command c => c = .stopDiscovery .first
  | .record _ => True
  | .answer _ => True
  | .perform id actions _ => id = 0 ∧ (d.phase ≠ .stopped → Paired actions)
  | .settle id _ => id = 0
  | .arrive _ c i => c ∈ t.store ∧ i.accepts .exactKey c = true
  | .timeout _ _ => True
  | .handOver id _ _ => id = 0
  | _ => False

def Outermost : Task → Prop
  | .command c => c.Manages
  | .answer _ => True
  | .publishAll _ _ => True
  | .timeoutAll _ _ => True
  | .refreshAll ids _ _ => ∀ id ∈ ids, id = 0
  | _ => False

variable {d d' : Discovery} {t t' : Transport Handler} {task : Task}

theorem Nested.hosted (h : task.Nested d t) : task.Hosted := by
  unfold Nested at h
  split at h
  · subst h
    exact .inl True.intro
  · exact .inr (.inr (.inl ⟨_, rfl⟩))
  · exact .inl True.intro
  · exact .inl h.1
  · exact .inl h
  · rename_i handler c i
    by_cases hmine : handler = .retrieval 0
    · exact .inl hmine
    · exact .inr (.inr (.inr hmine))
  · rename_i handler i
    by_cases hmine : handler = .retrieval 0
    · exact .inl hmine
    · exact .inr (.inr (.inr hmine))
  · exact .inr (.inr (.inr h))
  · cases h

theorem Outermost.hosted (h : task.Outermost) : task.Hosted := by
  unfold Outermost at h
  split at h
  · unfold Command.Manages at h
    split at h
    · exact .inl True.intro
    · exact .inl True.intro
    · exact .inl True.intro
    · exact .inl True.intro
    · exact .inl True.intro
    · exact .inl True.intro
    · exact .inr (.inl ⟨_, rfl⟩)
    · cases h
  · exact .inl True.intro
  · exact .inl True.intro
  · exact .inl True.intro
  · exact .inl h
  · cases h

theorem Nested.mono (h : task.Nested d t) (hphase : d'.phase ≠ .stopped → d.phase ≠ .stopped)
    (hstore : t.store ⊆ t'.store) : task.Nested d' t' := by
  unfold Nested at h
  split at h
  · exact h
  · exact True.intro
  · exact True.intro
  · exact ⟨h.1, fun hopen => h.2 (hphase hopen)⟩
  · exact h
  · exact ⟨hstore h.1, h.2⟩
  · exact True.intro
  · exact h
  · cases h

theorem Nested.count_cancels_le (h : task.Nested d t) (hopen : d.phase ≠ .stopped)
    (j : Interest) : task.cancels.count j ≤ task.owed.count j := by
  unfold Nested at h
  split at h
  · exact Nat.zero_le _
  · exact Nat.zero_le _
  · exact Nat.zero_le _
  · exact Nat.le_of_add_right_le ((h.2 hopen).count_le j)
  · exact Nat.zero_le _
  · exact Nat.zero_le _
  · exact Nat.zero_le _
  · exact Nat.zero_le _
  · cases h

theorem Outermost.cancels_eq (h : task.Outermost) : task.cancels = [] := by
  unfold Outermost at h
  split at h <;> first | rfl | cases h

theorem Outermost.withdrawals_eq (h : task.Outermost) : task.withdrawals = [] := by
  unfold Outermost at h
  split at h <;> first | rfl | cases h

theorem Outermost.not_calls (h : task.Outermost) : ¬ task.Calls := by
  intro hcalls
  unfold Calls at hcalls
  split at hcalls <;> first | exact hcalls | exact h

theorem Calls.blank (h : task.Calls) : task.Blank := by
  unfold Calls at h
  split at h
  · exact ⟨rfl, rfl, rfl⟩
  · exact ⟨rfl, if_neg h, rfl⟩
  · exact ⟨rfl, if_neg h, rfl⟩
  · cases h

theorem Stops.blank (h : task.Stops) : task.Blank := by
  unfold Stops at h
  split at h
  · exact ⟨rfl, rfl, rfl⟩
  · exact ⟨rfl, rfl, rfl⟩
  · cases h

theorem Stops.nested (h : task.Stops) : task.Nested d t := by
  unfold Stops at h
  split at h
  · exact h
  · exact True.intro
  · cases h

end Task

/-- An agenda with one outermost task at most, which comes last. -/
inductive Layered (d : Discovery) (t : Transport Handler) : List Task → Prop where
  | nil : Layered d t []
  | outermost {task : Task} (h : task.Outermost) : Layered d t [task]
  | nested {task : Task} {rest : List Task} (h : task.Nested d t) (hrest : Layered d t rest) :
      Layered d t (task :: rest)

theorem count_cancels_le_withdrawals (tasks : List Task) (j : Interest) :
    (cancels tasks).count j ≤ (withdrawals tasks).count j := by
  have hone : ∀ task : Task, task.cancels.count j ≤ task.withdrawals.count j := by
    intro task
    cases task <;> first | exact Nat.le_refl _ | exact Nat.zero_le _
  induction tasks with
  | nil => exact Nat.le_refl _
  | cons task tasks ih =>
    rw [cancels_cons, withdrawals_cons, List.count_append, List.count_append]
    exact Nat.add_le_add (hone task) ih

namespace Layered

variable {d d' : Discovery} {t t' : Transport Handler} {task : Task} {agenda tasks rest : List Task}

theorem hosted (h : Layered d t (task :: rest)) : task.Hosted := by
  cases h with
  | outermost h => exact h.hosted
  | nested h => exact h.hosted

theorem mono (h : Layered d t agenda) (hphase : d'.phase ≠ .stopped → d.phase ≠ .stopped)
    (hstore : t.store ⊆ t'.store) : Layered d' t' agenda := by
  induction h with
  | nil => exact .nil
  | outermost h => exact .outermost h
  | nested h _ ih => exact .nested (h.mono hphase hstore) ih

theorem append (htasks : ∀ task ∈ tasks, task.Nested d t) (h : Layered d t rest) :
    Layered d t (tasks ++ rest) := by
  induction tasks with
  | nil => exact h
  | cons task tasks ih =>
    exact .nested (htasks task List.mem_cons_self)
      (ih fun task' ht => htasks task' (List.mem_cons_of_mem task ht))

theorem count_cancels_le (h : Layered d t agenda) (hopen : d.phase ≠ .stopped) (j : Interest) :
    (cancels agenda).count j ≤ (owed agenda).count j := by
  induction h with
  | nil => exact Nat.le_refl _
  | outermost h =>
    rw [cancels_cons, h.cancels_eq]
    exact Nat.zero_le _
  | nested h _ ih =>
    have hle := h.count_cancels_le hopen j
    rw [cancels_cons, owed_cons, List.count_append, List.count_append]
    omega

end Layered

end NamedContent
