import NamedContent.Proofs.BooksProgress
import NamedContent.Proofs.TendedSessions

/-! Tasks that come up in a session whose listeners take no steps. What turns to all slots of a
retrieval at once does so a number of times that is known beforehand; every other task has a weight,
and whatever arrives brings a version or a stray that is new to some retrieval, or brings on little.
-/

namespace NamedContent

section Modified

variable {α : Type} {xs : List α} {x : α} {k : Nat} {f : α → Nat} {g : α → α}

theorem map_modify_of_eq {β : Type} {f : α → β} (h : ∀ x, xs[k]? = some x → f (g x) = f x) :
    (xs.modify k g).map f = xs.map f := by
  induction xs generalizing k with
  | nil => simp
  | cons y ys ih =>
    cases k with
    | zero => simp [h y rfl]
    | succ k => simpa using ih fun x hx => h x hx

theorem sum_map_modify_lt (hx : xs[k]? = some x) (h : f (g x) < f x) :
    ((xs.modify k g).map f).sum < (xs.map f).sum := by
  induction xs generalizing k with
  | nil => cases hx
  | cons y ys ih =>
    cases k with
    | zero =>
      obtain rfl : y = x := Option.some.inj hx
      simpa using h
    | succ k => simpa using ih hx

end Modified

namespace Discovery

variable {d d' : Discovery} {cs : List Content} {c : Content} {i : Interest} {now : Time}

/-- Whatever arrives from the transport comes to nothing, or brings something new. -/
theorem Sound.arrive_level_or_lessens (now : Time) (h : d.Sound) (hc : c ∈ cs)
    (hacc : i.accepts .exactKey c = true) :
    Level d (d.arrive now c i).discovery ∧ (d.arrive now c i).actions = [] ∧
        (d.arrive now c i).delivers = false ∨
      (d.arrive now c i).discovery.lacking cs < d.lacking cs ∨
      (d.arrive now c i).discovery.lacking cs = d.lacking cs ∧
        (d.arrive now c i).discovery.missing cs < d.missing cs := by
  by_cases hrun : d.isRunning = true
  · by_cases hi : i ∈ d.outstanding
    · have hacc' := h.accepts_whatever_trust hi d.trust hacc
      cases hx : c.name.component? d.basename.length with
      | none =>
        obtain ⟨pre, s, post, hslots, -, hask⟩ := exists_awaiting hi
        rw [arrive_ended_eq hrun hslots hask hacc' hx]
        exact .inl ⟨⟨⟨rfl, rfl, rfl, rfl⟩, by simp [hslots]⟩, rfl, rfl⟩
      | some x => exact .inr (h.arrive_lessens now hc hi hacc' hx)
    · have hexcluded := @isExcluded_arrive_iff d now c i h
      obtain ⟨hsame, -⟩ := @arrive_frame d now c i h
      have hnot : ∀ {pre post : List Slot} {s : Slot}, d.slots = pre ++ s :: post →
          s.outstanding ≠ some i := fun {pre post s} hslots hs =>
        hi (mem_outstanding.2 ⟨s, by simp [hslots], hs⟩)
      have htaken : Taken d now c i (d.arrive now c i) := arrive_taken h hrun
      generalize d.arrive now c i = a at htaken hexcluded hsame ⊢
      cases htaken with
      | passedOver => exact .inl ⟨.refl d, rfl, rfl⟩
      | duplicate => exact .inl ⟨⟨⟨rfl, rfl, rfl, rfl⟩, rfl⟩, rfl, rfl⟩
      | @unasked v pre post s hask hacc' hv hslots hcov hnew =>
        have hmem : s ∈ d.slots := by simp [hslots]
        rw [← h.isExcluded_iff_of_covers hmem hcov, Bool.not_eq_true] at hnew
        refine .inr (.inl (lacking_lt hsame hc hv hnew ?_ ?_))
        · exact (hexcluded v).2 (.inr ⟨hrun, hacc', hv⟩)
        · exact fun u hu => (hexcluded u).2 (.inl hu)
      | mismatch hslots hs => exact absurd hs (hnot hslots)
      | ended hslots hs => exact absurd hs (hnot hslots)
      | stray hslots hs => exact absurd hs (hnot hslots)
      | version hslots hs => exact absurd hs (hnot hslots)
  · rw [arrive, if_neg hrun]
    exact .inl ⟨.refl d, rfl, rfl⟩

theorem Sound.timeout_level (now : Time) (h : d.Sound) (i : Interest) :
    Level d (d.timeout now i).1 ∧
      ((d.timeout now i).2 = [] ∨ (d.timeout now i).2 = [.express i]) := by
  by_cases hi : i ∈ d.outstanding
  · obtain ⟨halike, hactions⟩ := timeout_asked now h hi
    exact ⟨halike.toLevel, .inr hactions⟩
  · rw [timeout_unasked now hi]
    exact ⟨.refl d, .inl rfl⟩

end Discovery

namespace Task

/-- Tasks that leave it alone which retrievals there are, who follows them and whether they run;
and what arrives is held, and answers the Interest. -/
def Mild (store : List Content) : Task → Prop
  | .command _ => False
  | .publishAll _ _ => False
  | .refreshLoop _ => False
  | .stopAll _ => False
  | .rollback _ _ => False
  | .arrive _ c i => c ∈ store ∧ i.accepts .exactKey c = true
  | _ => True

def Passive (store : List Content) (task : Task) : Prop :=
  task.Mild store ∨ (∃ ids, task = .stopAll ids) ∨ ∃ n l, task = .rollback n l

variable {store : List Content} {task : Task}

theorem Mild.not_tends (h : task.Mild store) : ¬ task.Tends := by
  intro htends
  cases task <;> first | exact False.elim h | exact False.elim htends

theorem Mild.not_publishes {c : Content} (h : task.Mild store) : ¬ task.Publishes c := by
  rintro (_ | _) <;> exact h

theorem Passive.not_publishes {c : Content} (h : task.Passive store) : ¬ task.Publishes c := by
  rcases h with hmild | ⟨ids, rfl⟩ | ⟨n, l, rfl⟩
  · exact hmild.not_publishes
  · nofun
  · nofun

theorem Passive.not_command {c : Command} : ¬ Passive store (.command c) := by
  simp [Passive, Mild]

/-- How often the task, or what comes of it, turns to all slots of a retrieval. -/
def rounds : Task → Nat
  | .refreshAll ids _ _ => ids.length
  | .stopAll ids => ids.length
  | .rollback _ _ => 1
  | _ => 0

theorem Passive.rounds_of_tends (h : task.Passive store) (htends : task.Tends) :
    task.rounds = 1 := by
  rcases h with hmild | ⟨ids, rfl⟩ | ⟨n, l, rfl⟩
  · exact absurd htends hmild.not_tends
  · cases htends
  · rfl

def burden (reach : Nat) : Task → Nat
  | .fanOut _ ls _ _ => 1 + 3 * ls.length
  | task => task.load reach

theorem burden_pos (reach : Nat) (task : Task) : 0 < task.burden reach := by
  unfold burden
  split
  · exact Nat.lt_add_right _ Nat.zero_lt_one
  · exact task.load_pos reach

end Task

def rounds (tasks : List Task) : Nat := (tasks.map Task.rounds).sum

def burden (reach : Nat) (tasks : List Task) : Nat := (tasks.map (Task.burden reach)).sum

section Tasks

variable {reach : Nat} {task : Task} {tasks : List Task}

@[simp] theorem rounds_nil : rounds [] = 0 := rfl

@[simp] theorem rounds_cons : rounds (task :: tasks) = task.rounds + rounds tasks := by
  simp [rounds]

@[simp] theorem rounds_append {tasks' : List Task} :
    rounds (tasks ++ tasks') = rounds tasks + rounds tasks' := by
  simp [rounds]

@[simp] theorem burden_nil : burden reach [] = 0 := rfl

@[simp] theorem burden_cons :
    burden reach (task :: tasks) = task.burden reach + burden reach tasks := by
  simp [burden]

@[simp] theorem burden_append {tasks' : List Task} :
    burden reach (tasks ++ tasks') = burden reach tasks + burden reach tasks' := by
  simp [burden]

end Tasks

namespace Session

variable {s : Session} {task : Task}

def Mute (s : Session) (l : ListenerId) : Prop := ∀ n, (s.script l).stepsAt n = []

theorem Scripted.mute (hsilent : s.Scripted fun _ => False) (l : ListenerId) : s.Mute l := fun _ =>
  List.eq_nil_iff_forall_not_mem.2 fun _ hstep => hsilent.stepsAt hstep

theorem Mute.call_eq {l : ListenerId} (h : s.Mute l) (e : Event) (after : Outcome → List Task) :
    s.call l e after = ((s.record e).countCall l).push
      (after ((s.script l).outcomeAt (s.callCount l))) := by
  rw [call, h]
  rfl

theorem call_of_silent (hsilent : s.Scripted fun _ => False) (l : ListenerId) (e : Event)
    (after : Outcome → List Task) :
    s.call l e after = ((s.record e).countCall l).push
      (after ((s.script l).outcomeAt (s.callCount l))) := (hsilent.mute l).call_eq e after

def MayCall (s : Session) : Task → ListenerId → Prop
  | .arrive (.listener _) _ _, _ => True
  | .timeout (.listener _) _, _ => True
  | .handOver id _ _, l => ∃ r, s.retrievals[id]? = some r ∧ r.owner = .listener l
  | .fanOut _ ls _ _, l => l ∈ ls
  | _, _ => False

theorem mayCall_of_callsBack (htask : task.CallsBack) (l : ListenerId) : s.MayCall task l := by
  unfold Task.CallsBack at htask
  split at htask
  · exact True.intro
  · exact True.intro
  · cases htask

end Session

end NamedContent
