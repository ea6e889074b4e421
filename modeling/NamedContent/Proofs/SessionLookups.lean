import NamedContent.Proofs.SessionSteps

/-! What steps look up before they do anything: the retrieval, the Interest or the registry that a
command is about, and the versions that it names. Each of these is there or not. -/

namespace NamedContent

namespace FanOut

variable (f : FanOut) (l : ListenerId)

theorem failures_add : (f.add l).failures = f.failures := by
  rw [add]
  split <;> rfl

theorem failures_remove : (f.remove l).failures = f.failures := rfl

theorem failures_markStopped : f.markStopped.failures = f.failures := rfl

end FanOut

namespace Session

theorem versionsOf_eq_ok_iff {ticks : List UInt64} {vs : List Version} :
    versionsOf ticks = .ok vs ↔
      (∀ t ∈ ticks, Version.InRange ⟨t⟩) ∧ vs = ticks.map Version.mk := by
  induction ticks generalizing vs with
  | nil => simp [versionsOf, pure, Except.pure, eq_comm]
  | cons t ticks ih =>
    have hcons : versionsOf (t :: ticks) =
        (Version.ofTicks t).mapError .version >>= fun v => versionsOf ticks >>= fun vs =>
          pure (v :: vs) := List.mapM_cons
    rw [hcons, List.forall_mem_cons, List.map_cons, Version.ofTicks]
    by_cases ht : Version.InRange ⟨t⟩
    · have hle : ¬ Version.maxTicks < t := UInt64.not_lt.2 ht
      rw [if_neg hle]
      cases htail : versionsOf ticks with
      | ok us =>
        obtain ⟨hrange, rfl⟩ := ih.1 htail
        simpa [ht, Except.mapError, bind, Except.bind, pure, Except.pure, eq_comm] using
          fun _ => hrange
      | error fault =>
        have hrange : ¬ ∀ u ∈ ticks, Version.InRange ⟨u⟩ := fun hrange => by
          rw [ih.2 ⟨hrange, rfl⟩] at htail
          cases htail
        simp [hrange, Except.mapError, bind, Except.bind]
    · have hlt : Version.maxTicks < t := UInt64.not_le.1 ht
      rw [if_pos hlt]
      simp [ht, Except.mapError, bind, Except.bind]

section Lookups

/-! Whatever a command is about is looked up first, and is there or not. -/

variable {s : Session} {K : Session → Prop}

theorem withRetrieval_cases {id : Nat} {f : Retrieval → Session}
    (hnone : s.retrievals[id]? = none → K s) (hf : ∀ r, s.retrievals[id]? = some r → K (f r)) :
    K (s.withRetrieval id f) := by
  rw [withRetrieval]
  cases hr : s.retrievals[id]? with
  | none => exact hnone hr
  | some r => exact hf r hr

theorem onTarget_cases (t : Target) {f : Nat → Retrieval → Session}
    (hreply : ∀ a, K (s.reply a)) (hf : ∀ id r, s.retrievals[id]? = some r → K (f id r)) :
    K (s.onTarget t f) := by
  rw [onTarget, retrievalOf]
  cases s.resolve t with
  | error fault => exact hreply _
  | ok id =>
    simp only
    cases hr : s.retrievals[id]? with
    | none => exact hreply _
    | some r => exact hf id r hr

theorem onInterest_cases (t : Target) (ref : InterestRef) {f : Interest → Session}
    (hreply : ∀ a, (∀ i, s.interestOf t ref ≠ .ok i) → K (s.reply a))
    (hf : ∀ i, s.interestOf t ref = .ok i → K (f i)) : K (s.onInterest t ref f) := by
  rw [onInterest]
  cases hi : s.interestOf t ref with
  | error fault => exact hreply _ (by simp [hi])
  | ok i => exact hf i hi

theorem onRegistry_cases {f : Registry → Session} (hreply : ∀ a, K (s.reply a))
    (hf : ∀ registry, s.registry = some registry → K (f registry)) : K (s.onRegistry f) := by
  rw [onRegistry]
  cases hregistry : s.registry with
  | none => exact hreply _
  | some registry => exact hf registry hregistry

end Lookups

theorem toOption_eq_none {t : Target} {ref : InterestRef} {s : Session}
    (h : ∀ i, s.interestOf t ref ≠ .ok i) : (s.interestOf t ref).toOption = none := by
  cases hi : s.interestOf t ref with
  | error fault => rfl
  | ok i => exact absurd hi (h i)

end Session

end NamedContent
