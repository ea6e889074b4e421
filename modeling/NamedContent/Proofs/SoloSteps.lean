import NamedContent.Proofs.DiscoveryRuns
import NamedContent.Proofs.SoloSession

/-! Steps of a session about one discovery, seen from the discovery: it moves or stays as it is,
what it absorbs is what the first task brings, and it asks for Interests of its own partitions
only. -/

namespace NamedContent

theorem exists_map_ok {α β ε : Type} {f : α → Except ε β} {xs : List α}
    (h : ∀ x ∈ xs, ∃ y, f x = .ok y) : ∃ ys : List β, xs.map f = ys.map .ok := by
  induction xs with
  | nil => exact ⟨[], rfl⟩
  | cons x xs ih =>
    obtain ⟨y, hy⟩ := h x List.mem_cons_self
    obtain ⟨ys, hys⟩ := ih fun z hz => h z (List.mem_cons_of_mem x hz)
    exact ⟨y :: ys, by simp [hy, hys]⟩

/-- The versions that a discovery absorbs when the task is done. -/
def Task.takes (d : Discovery) : Task → List Version
  | .arrive _ c i =>
    if d.isRunning && i.accepts d.trust c then
      (Version.ofNameAt c.name d.basename.length).toOption.toList
    else []
  | _ => []

namespace Discovery

def Asks (d : Discovery) (i : Interest) : Prop :=
  ∃ p : Partition, p.interest d.basename d.config = .ok i

variable {d d' : Discovery} {now : Time} {c : Content} {i : Interest}

theorem SameTask.asks_iff (h : SameTask d d') : d'.Asks i ↔ d.Asks i := by
  rw [Asks, Asks, h.basename, h.config]

def Names (d : Discovery) (c : Content) (v : Version) : Prop :=
  v.InRange ∧ ∃ tail, c.name.components = d.basename.components ++ v.toComponent :: tail

theorem Names.ofNameAt_eq {v : Version} (h : d.Names c v) :
    Version.ofNameAt c.name d.basename.length = .ok v := by
  obtain ⟨hr, tail, hname⟩ := h
  refine Version.ofNameAt_eq_ok_iff.2 ⟨hr, ?_⟩
  rw [Name.component?, hname, Name.length, getElem?_append_cons]

theorem Asks.names (h : d.Asks i) {v : Version} (hv : d.Carries c i v) : d.Names c v := by
  obtain ⟨p, hp⟩ := h
  obtain ⟨f, -, rfl⟩ := Partition.interest_name hp
  obtain ⟨hr, hx⟩ := Version.ofNameAt_eq_ok_iff.1 hv.2
  obtain ⟨⟨tail, htail⟩, -, -⟩ := (Interest.accepts_filtered_iff hx).1 hv.1
  rw [Name.component?, ← htail, Name.length, List.getElem?_append_right (Nat.le_refl _),
    Nat.sub_self] at hx
  obtain ⟨rest, rfl⟩ : ∃ rest, tail = v.toComponent :: rest := by
    cases tail with
    | nil => cases hx
    | cons x rest => exact ⟨rest, by rw [Option.some.inj hx]⟩
  exact ⟨hr, rest, htail.symm⟩

theorem asks_of_mem_expressions (ps : List Partition)
    (h : .express i ∈ Slot.expressions (ps.map (Slot.fresh d.basename d.config now))) :
    d.Asks i := by
  obtain ⟨s, hs, hi⟩ := List.mem_filterMap.1 h
  obtain ⟨p, -, rfl⟩ := List.mem_map.1 hs
  rw [Slot.fresh, Slot.reissue] at hi
  cases hp : p.interest d.basename d.config with
  | error fault => simp [hp, Slot.clear] at hi
  | ok j =>
    simp only [hp, Option.map_some, Option.some.injEq, Action.express.injEq] at hi
    exact ⟨p, hi ▸ hp⟩

theorem not_express_mem_withdrawal {s : Slot} : .express i ∉ s.withdrawal := by
  rw [Slot.withdrawal]
  split <;> simp

theorem asks_of_start (hi : .express i ∈ (d.start now).2) : d.Asks i := by
  by_cases hphase : d.phase = .created
  · rw [start_eq hphase] at hi
    have hmap := List.map_map (f := fun s : Slot => s.partition)
      (g := Slot.fresh d.basename d.config now) (l := d.slots)
    exact asks_of_mem_expressions (d.slots.map (·.partition)) (by rw [hmap]; exact hi)
  · rw [start, if_neg hphase] at hi
    cases hi

theorem not_express_mem_stop : .express i ∉ d.stop.2 := by
  by_cases hphase : d.phase = .stopped
  · simp [stop, hphase]
  · rw [stop_eq hphase]
    simp [not_express_mem_withdrawal]

theorem asks_of_refresh (hi : .express i ∈ (d.refresh now).2) : d.Asks i := by
  by_cases hrun : d.isRunning = true
  · rw [(refresh_eq hrun).2, List.mem_flatMap] at hi
    obtain ⟨s, hs, hi⟩ := hi
    rw [s.refresh_eq] at hi
    split at hi
    · rcases List.mem_append.1 hi with hi | hi
      · exact absurd hi not_express_mem_withdrawal
      · exact asks_of_mem_expressions [s.partition] hi
    · cases hi
  · rw [refresh, if_neg hrun] at hi
    cases hi

theorem asks_of_timeout {j : Interest} (hi : .express i ∈ (d.timeout now j).2) : d.Asks i := by
  by_cases hrun : d.isRunning = true
  · cases hawait : d.slotAwaiting? j with
    | none => simp [timeout, hrun, hawait] at hi
    | some k =>
      obtain ⟨pre, s, post, hslots, rfl, -⟩ := slotAwaiting?_eq_some hawait
      rw [timeout_eq hrun hslots hawait] at hi
      exact asks_of_mem_expressions [s.partition] hi
  · rw [timeout, if_neg hrun] at hi
    cases hi

theorem asks_of_arrive {j : Interest} (h : d.Sound)
    (hi : .express i ∈ (d.arrive now c j).actions) : d.Asks i := by
  by_cases hrun : d.isRunning = true
  · have htaken : Taken d now c j (d.arrive now c j) := arrive_taken h hrun
    generalize d.arrive now c j = a at htaken hi
    cases htaken with
    | passedOver => cases hi
    | duplicate => cases hi
    | unasked =>
      rcases List.mem_append.1 hi with hi | hi
      · exact absurd hi not_express_mem_withdrawal
      · exact asks_of_mem_expressions _ hi
    | @mismatch pre post s => exact asks_of_mem_expressions [s.partition] hi
    | ended => cases hi
    | @stray x pre post s => exact asks_of_mem_expressions [s.partition.insertStray x] hi
    | version => exact asks_of_mem_expressions _ hi
  · rw [arrive, if_neg hrun] at hi
    cases hi

end Discovery

section Steps

open Discovery (Move)

variable {issued : List Interest} {d : Discovery} {t : Transport Handler} {task : Task}
  {e : Effect}

theorem Task.mem_takes_iff {h : Handler} {c : Content} {i : Interest} {v : Version} :
    v ∈ Task.takes d (.arrive h c i) ↔ d.isRunning = true ∧ d.Carries c i v := by
  rw [takes, Discovery.Carries]
  cases d.isRunning <;> cases i.accepts d.trust c <;>
    cases Version.ofNameAt c.name d.basename.length <;> simp [Except.toOption, eq_comm]

theorem Does.moves (h : Does issued d t task e) :
    e.discovery = d ∧ task.takes d = [] ∨
      ∃ m : Move, e.discovery = m.apply d ∧ ∀ v, m.Absorbs d v ↔ v ∈ task.takes d := by
  cases h with
  | start now => exact .inr ⟨.start now, rfl, fun v => by simp [Move.Absorbs, Task.takes]⟩
  | stop => exact .inr ⟨.stop, rfl, fun v => by simp [Move.Absorbs, Task.takes]⟩
  | cancel => exact .inr ⟨.cancelled, rfl, fun v => by simp [Move.Absorbs, Task.takes]⟩
  | @expressRefused i =>
    exact .inr ⟨.refused i, rfl, fun v => by simp [Move.Absorbs, Task.takes]⟩
  | @settleKeeps i => exact .inr ⟨.settled i, rfl, fun v => by simp [Move.Absorbs, Task.takes]⟩
  | @settleCancels i =>
    exact .inr ⟨.settled i, rfl, fun v => by simp [Move.Absorbs, Task.takes]⟩
  | arrive now c i => exact .inr ⟨.arrive now c i, rfl, fun v => Task.mem_takes_iff.symm⟩
  | timeout now i =>
    exact .inr ⟨.timeout now i, rfl, fun v => by simp [Move.Absorbs, Task.takes]⟩
  | refreshNext ids now =>
    exact .inr ⟨.refresh now, rfl, fun v => by simp [Move.Absorbs, Task.takes]⟩
  | _ => exact .inl ⟨rfl, rfl⟩

theorem Does.sound (h : Does issued d t task e) (hd : d.Sound) : e.discovery.Sound := by
  rcases h.moves with ⟨heq, -⟩ | ⟨m, heq, -⟩
  · rwa [heq]
  · rw [heq]
    exact m.sound hd

theorem Does.sameTask (h : Does issued d t task e) (hd : d.Sound) :
    Discovery.SameTask d e.discovery := by
  rcases h.moves with ⟨heq, -⟩ | ⟨m, heq, -⟩
  · rw [heq]
    exact .refl d
  · rw [heq]
    exact m.sameTask hd

theorem Does.isExcluded_iff (h : Does issued d t task e) (hd : d.Sound) (v : Version) :
    e.discovery.isExcluded v = true ↔ d.isExcluded v = true ∨ v ∈ task.takes d := by
  rcases h.moves with ⟨heq, htakes⟩ | ⟨m, heq, habsorbs⟩
  · simp [heq, htakes]
  · rw [heq, m.isExcluded_iff hd, habsorbs]

end Steps

end NamedContent
