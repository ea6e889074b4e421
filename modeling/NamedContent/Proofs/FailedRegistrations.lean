import NamedContent.Proofs.DeliverySafety
import NamedContent.Proofs.Registrations

/-! A failed registration leaves no trace: only a new name can fail to be registered, and then the
registry, the other retrievals and what waits at the transport are as they were before. -/

namespace NamedContent

namespace Session

variable {start s : Session} {registry : Registry} {exclusions : List UInt64}
  {floor : Option UInt64} {id : Nat}

theorem InOrder.nothing_waits_yet (h : s.InOrder) {p : Pending Handler}
    (hp : p ∈ s.transport.pending) : p.handler ≠ .retrieval s.retrievals.length := by
  intro hmine
  have haway := h.away (List.getElem?_eq_none (Nat.le_refl s.retrievals.length))
  have hzero := haway.held p.interest
  rw [held, List.count_eq_zero, Transport.mem_heldFor, ← hmine] at hzero
  exact hzero hp

/-- Whatever the transport holds and refuses, a registration returns; if it fails, the name was not
registered, and the registry, the retrievals there were and what waits are as before. -/
theorem Course.failed_registration_leaves_no_trace (h : Course Command.ByTransport start s)
    (hopens : start.Opens) (hsilent : start.Scripted fun _ => False) (hdone : s.agenda = [])
    (hregistry : s.registry = some registry) (n : Name) (l : ListenerId)
    (hrange : SeedsInRange exclusions floor) :
    (∃ fuel, (s.give fuel (.express n l exclusions floor)).agenda = []) ∧
    ∀ (fuel : Nat) (fault : Fault), (s.give fuel (.express n l exclusions floor)).agenda = [] →
      (s.give fuel (.express n l exclusions floor)).answer = .failed fault →
      registry.find? n = none ∧
      (s.give fuel (.express n l exclusions floor)).registry = some registry ∧
      (∀ (k : Nat) (r : Retrieval), s.retrievals[k]? = some r →
        (s.give fuel (.express n l exclusions floor)).retrievals[k]? = some r) ∧
      (s.give fuel (.express n l exclusions floor)).transport.pending = s.transport.pending := by
  have hlawful := h.lawful hopens.lawful
  have hsilent' := h.scripted hsilent
  cases hfind : registry.find? n with
  | some id =>
    refine ⟨⟨2, ?_⟩, fun fuel fault hreturned hfailed => ?_⟩
    · show ((s.called _).step.finish 1).agenda = []
      rw [called_express_known hregistry hfind hrange]
      rfl
    · rw [express_known_returns hregistry hfind hrange hreturned] at hfailed
      cases hfailed
  | none =>
    refine ⟨express_new_ends hlawful hsilent' hregistry hfind hrange l, ?_⟩
    intro fuel fault hreturned hfailed
    have hby : (Command.express n l exclusions floor).ByTransport := True.intro
    have hgiven := h.give hdone hby fuel
    have hnests : start.Scripted Command.Nests := hsilent.mono fun _ => False.elim
    obtain ⟨hduring, ⟨hsucceeded, -⟩ | ⟨-, hgone⟩⟩ :=
      express_new_returns hlawful hsilent' hregistry hfind hrange hreturned
    · rw [hsucceeded] at hfailed
      cases hfailed
    · refine ⟨rfl, hgone.registry, fun k r hr => ?_, ?_⟩
      · have hlt := (List.getElem?_eq_some_iff.1 hr).1
        rw [hduring.beside.retrievals k (Nat.ne_of_lt hlt), hr]
      · obtain ⟨slots, r, hr, -, hphase, -⟩ := hgone.stopped
        have hafter := Transport.others_eq_pending fun p hp =>
          (hgiven.inOrder hopens hnests).nothing_waits hreturned hr hphase hp
        have hbefore := Transport.others_eq_pending fun p hp =>
          (h.inOrder hopens hnests).nothing_waits_yet hp
        rw [← hafter, hduring.beside.others, hbefore]

section Samples

def sampleHolding : Session :=
  { registry := some { config := { maxExcludes := 2 }, trust := .exactKey }
    transport := { store := [sampleContent 12] } }

theorem opens_sampleHolding : sampleHolding.Opens := by
  refine ⟨rfl, by simp [sampleHolding], ?_, by simp [sampleHolding]⟩
  rintro registry ⟨⟩
  exact ⟨rfl, rfl⟩

def sampleRefusing : Session :=
  (sampleHolding.give 20 (.express ⟨[[2]]⟩ "k" [] none)).give 1 (.refuseNext 1)

theorem Course.failed_registration_leaves_no_trace_sample :
    ∃ registry, Course Command.ByTransport sampleHolding sampleRefusing ∧
      sampleRefusing.registry = some registry ∧
      (sampleRefusing.give 40 (.express ⟨[[1]]⟩ "l" [5, 9] none)).agenda = [] ∧
      (sampleRefusing.give 40 (.express ⟨[[1]]⟩ "l" [5, 9] none)).answer = .failed .refused ∧
      sampleRefusing.transport.pending.length = 1 ∧
      (sampleRefusing.give 40 (.express ⟨[[1]]⟩ "l" [5, 9] none)).issued.length = 4 ∧
      (sampleRefusing.give 40 (.express ⟨[[1]]⟩ "l" [5, 9] none)).registry = some registry ∧
      (sampleRefusing.give 40 (.express ⟨[[1]]⟩ "l" [5, 9] none)).transport.pending =
        sampleRefusing.transport.pending := by
  have hsilent : sampleHolding.Scripted fun _ => False := by simp [Scripted, sampleHolding]
  have hfirst : (sampleHolding.give 20 (.express ⟨[[2]]⟩ "k" [] none)).agenda = [] := by cbv
  have hcourse : Course Command.ByTransport sampleHolding sampleRefusing :=
    (Course.start.give rfl True.intro 20).give hfirst True.intro 1
  have hdone : sampleRefusing.agenda = [] := by cbv
  have hreturned : (sampleRefusing.give 40 (.express ⟨[[1]]⟩ "l" [5, 9] none)).agenda = [] := by
    cbv
  have hfailed : (sampleRefusing.give 40 (.express ⟨[[1]]⟩ "l" [5, 9] none)).answer =
      .failed .refused := by cbv
  have hpresent : sampleRefusing.registry.isSome = true := by cbv
  obtain ⟨registry, hregistry⟩ := Option.isSome_iff_exists.1 hpresent
  have hversions : ∀ v ∈ [(⟨5⟩ : Version), ⟨9⟩], v.InRange := by decide
  have hrange : SeedsInRange [5, 9] none := ⟨by simpa using hversions, by simp⟩
  obtain ⟨-, htraceless⟩ := hcourse.failed_registration_leaves_no_trace opens_sampleHolding
    hsilent hdone hregistry ⟨[[1]]⟩ "l" hrange
  obtain ⟨-, hsame, -, hpending⟩ := htraceless 40 .refused hreturned hfailed
  exact ⟨registry, hcourse, hregistry, hreturned, hfailed, by cbv, by cbv, hsame, hpending⟩

end Samples

end Session

end NamedContent
