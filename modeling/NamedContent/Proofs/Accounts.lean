import Mathlib.Data.List.Nodup
import NamedContent.Proofs.SoloSteps

/-! The account of what is handed over, kept together with what is about to be: every content in it
names a version of its own, which has been absorbed since the beginning and is not below the
floor. A step moves contents within the account, drops some, or adds one that names a version just
absorbed. -/

namespace NamedContent

def Task.handOver? : Task → Option Content
  | .handOver _ c _ => some c
  | _ => none

def handOvers (tasks : List Task) : List Content := tasks.filterMap Task.handOver?

@[simp] theorem handOvers_nil : handOvers [] = [] := rfl

@[simp] theorem handOvers_cons (task : Task) (tasks : List Task) :
    handOvers (task :: tasks) = task.handOver?.toList ++ handOvers tasks := by
  rw [handOvers, List.filterMap_cons]
  cases task.handOver? <;> rfl

@[simp] theorem handOvers_append (tasks tasks' : List Task) :
    handOvers (tasks ++ tasks') = handOvers tasks ++ handOvers tasks' :=
  List.filterMap_append

section Steps

variable {issued : List Interest} {d : Discovery} {t : Transport Handler} {task : Task}
  {e : Effect}

theorem Does.handed_nil (h : Does issued d t task e) (hrun : d.isRunning = false) :
    e.handed = [] := by
  cases h with
  | handOver c i htrue =>
    rw [htrue] at hrun
    cases hrun
  | _ => rfl

/-- A step hands over what was about to be, or drops it, or brings content to be handed over. -/
theorem Does.hands (h : Does issued d t task e) :
    (e.handed ++ handOvers e.tasks).Sublist (handOvers [task]) ∨
      ∃ now c i, task = .arrive (.retrieval 0) c i ∧ (d.arrive now c i).delivers = true ∧
        e.handed ++ handOvers e.tasks = [c] := by
  cases h with
  | arrive now c i =>
    cases hdelivers : (d.arrive now c i).delivers with
    | false => exact .inl (by simp [Task.handOver?])
    | true => exact .inr ⟨now, c, i, rfl, hdelivers, by simp [Task.handOver?]⟩
  | _ => exact .inl (by simp [Task.handOver?])

theorem Discovery.delivers_names {d₀ : Discovery} {now : Time} {c : Content} {i : Interest}
    (hd : d.Sound) (hsame : d₀.SameTask d) (hasks : d₀.Asks i)
    (hdelivers : (d.arrive now c i).delivers = true) :
    ∃ v, d₀.Names c v ∧ d.isExcluded v = false ∧ d₀.Wants v ∧
      v ∈ Task.takes d (.arrive (.retrieval 0) c i) := by
  have hrun : d.isRunning = true := by
    cases hrun : d.isRunning with
    | true => rfl
    | false => simp [arrive, hrun] at hdelivers
  obtain ⟨v, hcarries, hnew, hwants⟩ := ((arrive_taken hd hrun).delivers_iff hd).1 hdelivers
  have hcarries₀ : d₀.Carries c i v := by
    rw [Carries, ← hsame.trust, ← hsame.basename]
    exact hcarries
  have hwants₀ : d₀.Wants v := by
    rw [Wants, ← hsame.floor]
    exact hwants
  exact ⟨v, hasks.names hcarries₀, hnew, hwants₀, Task.mem_takes_iff.2 ⟨hrun, hcarries⟩⟩

theorem Does.hands_all (h : Does issued d t task e)
    (hrun : ∀ c i, task = .handOver 0 c i → d.isRunning = true) :
    handOvers [task] ⊆ e.handed ++ handOvers e.tasks := by
  cases h with
  | handOverDropped c i hnot =>
    rw [hrun c i rfl] at hnot
    cases hnot
  | _ => simp [Task.handOver?]

theorem Does.hands_taken {d₀ : Discovery} {v : Version} (h : Does issued d t task e)
    (hd : d.Sound) (hsame : d₀.SameTask d)
    (hasks : ∀ c i, task = .arrive (.retrieval 0) c i → d₀.Asks i) (hv : v ∈ task.takes d)
    (hnew : d.isExcluded v = false) (hwants : d₀.Wants v) :
    ∃ c ∈ e.handed ++ handOvers e.tasks, d₀.Names c v := by
  cases h with
  | arrive now c i =>
    obtain ⟨hrun, hcarries⟩ := Task.mem_takes_iff.1 hv
    have hdelivers : (d.arrive now c i).delivers = true := by
      refine ((Discovery.arrive_taken hd hrun).delivers_iff hd).2 ⟨v, hcarries, hnew, ?_⟩
      rw [Discovery.Wants, hsame.floor]
      exact hwants
    have hcarries₀ : d₀.Carries c i v := by
      rw [Discovery.Carries, ← hsame.trust, ← hsame.basename]
      exact hcarries
    refine ⟨c, ?_, (hasks c i rfl).names hcarries₀⟩
    simp [hdelivers, Task.handOver?]
  | _ => cases hv

end Steps

/-- Contents handed over or about to be, between `d₀` at the beginning and `d`. -/
structure Account (d₀ d : Discovery) (cs : List Content) : Prop where
  named : ∀ c ∈ cs, ∃ v, d₀.Names c v ∧ d.isExcluded v = true ∧ d₀.isExcluded v = false ∧
    d₀.Wants v
  once : (cs.map fun c => Version.ofNameAt c.name d₀.basename.length).Nodup

namespace Account

variable {d₀ d d' : Discovery} {cs cs' : List Content} {c : Content} {v : Version}

theorem nil : Account d₀ d [] := ⟨by simp, by simp⟩

theorem sublist (h : Account d₀ d cs) (hsub : cs'.Sublist cs) : Account d₀ d cs' :=
  ⟨fun c hc => h.named c (hsub.subset hc), h.once.sublist (hsub.map _)⟩

theorem perm (h : Account d₀ d cs) (hperm : cs.Perm cs') : Account d₀ d cs' :=
  ⟨fun c hc => h.named c (hperm.mem_iff.2 hc), (hperm.map _).nodup_iff.1 h.once⟩

theorem weaken (h : Account d₀ d cs)
    (hmono : ∀ v, d.isExcluded v = true → d'.isExcluded v = true) : Account d₀ d' cs := by
  refine ⟨fun c hc => ?_, h.once⟩
  obtain ⟨v, hname, hv, hrest⟩ := h.named c hc
  exact ⟨v, hname, hmono v hv, hrest⟩

theorem cons (h : Account d₀ d cs) (hname : d₀.Names c v) (hnew : d.isExcluded v = false)
    (hv : d'.isExcluded v = true) (hmono : ∀ v, d.isExcluded v = true → d'.isExcluded v = true)
    (hex : d₀.isExcluded v = false) (hwants : d₀.Wants v) : Account d₀ d' (c :: cs) := by
  refine ⟨?_, List.nodup_cons.2 ⟨?_, h.once⟩⟩
  · rintro c' (_ | ⟨_, hc⟩)
    · exact ⟨v, hname, hv, hex, hwants⟩
    · exact (h.weaken hmono).named c' hc
  · simp only [hname.ofNameAt_eq]
    intro hmem
    obtain ⟨c', hc, heq⟩ := List.mem_map.1 hmem
    obtain ⟨u, hu, hold, -⟩ := h.named c' hc
    rw [hu.ofNameAt_eq, Except.ok.injEq] at heq
    rw [heq, hnew] at hold
    cases hold

theorem versions (h : Account d₀ d cs) : ∃ vs : List Version, vs.Nodup ∧
    cs.map (fun c => Version.ofNameAt c.name d₀.basename.length) = vs.map .ok ∧
    ∀ v, v ∈ vs ↔ ∃ c ∈ cs, d₀.Names c v := by
  obtain ⟨vs, hvs⟩ : ∃ vs : List Version,
      cs.map (fun c => Version.ofNameAt c.name d₀.basename.length) = vs.map .ok := by
    refine exists_map_ok fun c hc => ?_
    obtain ⟨v, hv, -⟩ := h.named c hc
    exact ⟨v, hv.ofNameAt_eq⟩
  have honce := h.once
  rw [hvs] at honce
  have hmem : ∀ v, v ∈ vs ↔
      .ok v ∈ cs.map (fun c => Version.ofNameAt c.name d₀.basename.length) := by
    intro v
    rw [hvs]
    simp
  refine ⟨vs, List.Nodup.of_map _ honce, hvs, fun v => ?_⟩
  rw [hmem, List.mem_map]
  constructor
  · rintro ⟨c, hc, heq⟩
    obtain ⟨u, hu, -⟩ := h.named c hc
    rw [hu.ofNameAt_eq, Except.ok.injEq] at heq
    exact ⟨c, hc, heq ▸ hu⟩
  · rintro ⟨c, hc, hname⟩
    exact ⟨c, hc, hname.ofNameAt_eq⟩

section Steps

variable {issued : List Interest} {t : Transport Handler} {task : Task} {e : Effect}
  {rest : List Task}

theorem perm_before (cs : List Content) (task : Task) (rest : List Task) :
    (cs ++ handOvers (task :: rest)).Perm (handOvers [task] ++ (cs ++ handOvers rest)) := by
  simpa using List.perm_append_comm_assoc _ _ _

theorem perm_after (cs : List Content) (e : Effect) (rest : List Task) :
    ((e.handed ++ handOvers e.tasks) ++ (cs ++ handOvers rest)).Perm
      (e.handed ++ cs ++ handOvers (e.tasks ++ rest)) := by
  rw [handOvers_append]
  simp only [List.append_assoc]
  exact (List.perm_append_comm_assoc _ _ _).append_left _

theorem does (h : Account d₀ d (cs ++ handOvers (task :: rest)))
    (hdoes : Does issued d t task e) (hd : d.Sound) (hsame : d₀.SameTask d)
    (hold : ∀ v, d₀.isExcluded v = true → d.isExcluded v = true)
    (hasks : ∀ c i, task = .arrive (.retrieval 0) c i → d₀.Asks i) :
    Account d₀ e.discovery (e.handed ++ cs ++ handOvers (e.tasks ++ rest)) := by
  have hmono : ∀ v, d.isExcluded v = true → e.discovery.isExcluded v = true := fun v hv =>
    (hdoes.isExcluded_iff hd v).2 (.inl hv)
  refine Account.perm ?_ (perm_after cs e rest)
  rcases hdoes.hands with hsub | ⟨now, c, i, rfl, hdelivers, hadds⟩
  · exact ((h.perm (perm_before cs task rest)).sublist (hsub.append_right _)).weaken hmono
  · obtain ⟨v, hname, hnew, hwants, htakes⟩ :=
      Discovery.delivers_names hd hsame (hasks c i rfl) hdelivers
    have hex : d₀.isExcluded v = false := by
      rw [← Bool.not_eq_true]
      intro hv
      rw [hold v hv] at hnew
      cases hnew
    have hless := (h.perm (perm_before cs _ rest)).sublist (List.sublist_append_right _ _)
    rw [hadds]
    exact hless.cons hname hnew ((hdoes.isExcluded_iff hd v).2 (.inr htakes)) hmono hex hwants

end Steps

end Account

/-- Every version absorbed that is to be handed over is named by one of the contents. -/
def Complete (d₀ d : Discovery) (cs : List Content) : Prop :=
  ∀ v, d.isExcluded v = true → d₀.isExcluded v = false → d₀.Wants v → ∃ c ∈ cs, d₀.Names c v

theorem Complete.does {d₀ d : Discovery} {cs : List Content} {issued : List Interest}
    {t : Transport Handler} {task : Task} {e : Effect} {rest : List Task}
    (h : Complete d₀ d (cs ++ handOvers (task :: rest))) (hdoes : Does issued d t task e)
    (hd : d.Sound) (hsame : d₀.SameTask d)
    (hasks : ∀ c i, task = .arrive (.retrieval 0) c i → d₀.Asks i)
    (hrun : ∀ c i, task = .handOver 0 c i → d.isRunning = true) :
    Complete d₀ e.discovery (e.handed ++ cs ++ handOvers (e.tasks ++ rest)) := by
  intro v hv hnew hwants
  have hafter := Account.perm_after cs e rest
  cases hold : d.isExcluded v with
  | true =>
    obtain ⟨c, hc, hname⟩ := h v hold hnew hwants
    refine ⟨c, hafter.mem_iff.1 ?_, hname⟩
    rcases List.mem_append.1 ((Account.perm_before cs task rest).mem_iff.1 hc) with hc | hc
    · exact List.mem_append_left _ (hdoes.hands_all hrun hc)
    · exact List.mem_append_right _ hc
  | false =>
    have htakes := ((hdoes.isExcluded_iff hd v).1 hv).resolve_left (by simp [hold])
    obtain ⟨c, hc, hname⟩ := hdoes.hands_taken hd hsame hasks htakes hold hwants
    exact ⟨c, hafter.mem_iff.1 (List.mem_append_left _ hc), hname⟩

end NamedContent
