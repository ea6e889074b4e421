import Mathlib.Data.List.Nodup
import NamedContent.Proofs.TransportAnswers

/-! What becomes of the Interests that a transport accepts. They are numbered as they are accepted,
and each number travels with its handler: the numbered transport does what the plain one does, and
keeps account of what has become of which number. At any time each number is that of one Interest
that still waits, or has met with one fate, and the transport's own counters say how many met with
which. Equal Interests of one handler are told apart by their numbers. -/

namespace NamedContent

namespace Transport

inductive Op (H : Type) where
  | publish (c : Content)
  | express (i : Interest) (h : H)
  | cancel (i : Interest) (h : H)
  | expireAll
  | refuseNext (n : Nat)

variable {H : Type}

def Op.run [DecidableEq H] (op : Op H) (t : Transport H) : Transport H :=
  match op with
  | .publish c => (t.publish c).1
  | .express i h => (t.express i h).1
  | .cancel i h => t.cancel i h
  | .expireAll => t.expireAll.1
  | .refuseNext n => t.refuseNext n

def Op.expiring (op : Op H) (t : Transport H) : Nat :=
  match op with
  | .expireAll => t.expireAll.2.length
  | _ => 0

def unnumbered (t : Transport (H × Nat)) : Transport H :=
  { store := t.store
    pending := t.pending.map fun p => ⟨p.interest, p.handler.1⟩
    refusals := t.refusals
    expressed := t.expressed
    cancelled := t.cancelled
    delivered := t.delivered }

def numbers (t : Transport (H × Nat)) : List Nat := t.pending.map (·.handler.2)

end Transport

theorem Transport.express_eq {H : Type} (t : Transport H) (i : Interest) (h : H) :
    t.express i h =
      if 0 < t.refusals then ({ t with refusals := t.refusals - 1 }, .refused)
      else
        match t.bestMatch i with
        | none =>
          ({ t with expressed := t.expressed + 1, pending := t.pending ++ [⟨i, h⟩] }, .waiting)
        | some c =>
          ({ t with expressed := t.expressed + 1, delivered := t.delivered + 1 }, .answered c) :=
  rfl

inductive Fate where
  | answered
  | cancelled
  | expired
  deriving DecidableEq

/-- A transport that numbers what it accepts, with the fates of those that no longer wait. -/
structure Numbered (H : Type) where
  transport : Transport (H × Nat) := {}
  fates : List (Nat × Fate) := []

namespace Numbered

open Transport (Op)

variable {H : Type} [DecidableEq H]

def publish (b : Numbered H) (c : Content) : Numbered H :=
  match b.transport.publish c with
  | (transport, none) => { b with transport }
  | (transport, some p) => { transport, fates := (p.handler.2, .answered) :: b.fates }

def express (b : Numbered H) (i : Interest) (h : H) : Numbered H :=
  match b.transport.express i (h, b.transport.expressed) with
  | (transport, .refused) => { b with transport }
  | (transport, .waiting) => { b with transport }
  | (transport, .answered _) =>
    { transport, fates := (b.transport.expressed, .answered) :: b.fates }

def cancel (b : Numbered H) (i : Interest) (h : H) : Numbered H :=
  match b.transport.pending.find? fun p => p.interest = i ∧ p.handler.1 = h with
  | none => b
  | some p =>
    { transport := b.transport.cancel i p.handler
      fates := (p.handler.2, .cancelled) :: b.fates }

def expireAll (b : Numbered H) : Numbered H :=
  { transport := b.transport.expireAll.1
    fates := b.transport.expireAll.2.map (fun p => (p.handler.2, .expired)) ++ b.fates }

def perform (b : Numbered H) : Op H → Numbered H
  | .publish c => b.publish c
  | .express i h => b.express i h
  | .cancel i h => b.cancel i h
  | .expireAll => b.expireAll
  | .refuseNext n => { b with transport := b.transport.refuseNext n }

def count (b : Numbered H) (f : Fate) : Nat := b.fates.countP (·.2 == f)

section Unnumbered

omit [DecidableEq H] in
theorem unnumbered_publish (b : Numbered H) (c : Content) :
    (b.publish c).transport.unnumbered = (b.transport.unnumbered.publish c).1 := by
  have hfind : b.transport.unnumbered.pending.find? (·.interest.accepts .exactKey c) =
      (b.transport.pending.find? (·.interest.accepts .exactKey c)).map
        fun p => ⟨p.interest, p.handler.1⟩ := List.find?_map
  rw [publish, Transport.publish, Transport.publish, hfind]
  cases b.transport.pending.find? (·.interest.accepts .exactKey c) with
  | none => rfl
  | some p =>
    simp only [Option.map_some, Transport.unnumbered, List.eraseP_map]
    rfl

omit [DecidableEq H] in
theorem express_eq (b : Numbered H) (i : Interest) (h : H) :
    b.express i h =
      if 0 < b.transport.refusals then
        { b with transport := { b.transport with refusals := b.transport.refusals - 1 } }
      else
        match b.transport.bestMatch i with
        | none =>
          { b with transport :=
              { b.transport with
                expressed := b.transport.expressed + 1
                pending := b.transport.pending ++ [⟨i, h, b.transport.expressed⟩] } }
        | some _ =>
          { transport :=
              { b.transport with
                expressed := b.transport.expressed + 1
                delivered := b.transport.delivered + 1 }
            fates := (b.transport.expressed, .answered) :: b.fates } := by
  rw [express, Transport.express_eq]
  by_cases hrefused : 0 < b.transport.refusals
  · simp only [if_pos hrefused]
  · simp only [if_neg hrefused]
    cases b.transport.bestMatch i <;> rfl

omit [DecidableEq H] in
theorem unnumbered_express (b : Numbered H) (i : Interest) (h : H) :
    (b.express i h).transport.unnumbered = (b.transport.unnumbered.express i h).1 := by
  have hrefusals : b.transport.unnumbered.refusals = b.transport.refusals := rfl
  have hbest : b.transport.unnumbered.bestMatch i = b.transport.bestMatch i := rfl
  rw [express_eq, Transport.express_eq, hrefusals, hbest]
  by_cases hrefused : 0 < b.transport.refusals
  · simp only [if_pos hrefused]
    rfl
  · simp only [if_neg hrefused]
    cases b.transport.bestMatch i with
    | none =>
      simp only [Transport.unnumbered, List.map_append]
      rfl
    | some c => rfl

theorem exists_split_of_find? {t : Transport (H × Nat)} {i : Interest} {h : H}
    {p : Pending (H × Nat)}
    (hfind : t.pending.find? (fun p => p.interest = i ∧ p.handler.1 = h) = some p) :
    ∃ pre post, t.pending = pre ++ p :: post ∧
      t.cancel i p.handler =
        { t with pending := pre ++ post, cancelled := t.cancelled + 1 } ∧
      t.unnumbered.cancel i h = (t.cancel i p.handler).unnumbered := by
  obtain ⟨hp, pre, post, hpending, hpre⟩ := List.find?_eq_some_iff_append.1 hfind
  obtain ⟨j, g, n⟩ := p
  obtain ⟨rfl, rfl⟩ : j = i ∧ g = h := by simpa using hp
  have hnot : ∀ q ∈ pre, ¬ (q.interest = j ∧ q.handler.1 = g) := fun q hq => by
    simpa [← imp_iff_not_or] using hpre q hq
  have hcancel : t.cancel j (g, n) =
      { t with pending := pre ++ post, cancelled := t.cancelled + 1 } := by
    have habsent : (⟨j, g, n⟩ : Pending (H × Nat)) ∉ pre := fun hmem => hnot _ hmem ⟨rfl, rfl⟩
    rw [Transport.cancel, hpending, if_pos List.mem_append_cons_self,
      List.erase_append_right _ habsent, List.erase_cons_head]
  refine ⟨pre, post, hpending, hcancel, ?_⟩
  have habsent : (⟨j, g⟩ : Pending H) ∉ pre.map fun p => ⟨p.interest, p.handler.1⟩ := by
    intro hmem
    obtain ⟨q, hq, heq⟩ := List.mem_map.1 hmem
    exact hnot q hq (by simpa using heq)
  have hunnumbered : t.unnumbered.pending =
      pre.map (fun p => ⟨p.interest, p.handler.1⟩) ++ ⟨j, g⟩ ::
        post.map fun p => ⟨p.interest, p.handler.1⟩ := by
    simp [Transport.unnumbered, hpending]
  rw [hcancel, Transport.cancel, hunnumbered, if_pos List.mem_append_cons_self,
    List.erase_append_right _ habsent, List.erase_cons_head, ← List.map_append]
  rfl

theorem unnumbered_cancel (b : Numbered H) (i : Interest) (h : H) :
    (b.cancel i h).transport.unnumbered = b.transport.unnumbered.cancel i h := by
  rw [cancel]
  split
  · rename_i hnone
    have habsent : (⟨i, h⟩ : Pending H) ∉ b.transport.unnumbered.pending := by
      intro hmem
      obtain ⟨p, hp, heq⟩ := List.mem_map.1 hmem
      simp only [Pending.mk.injEq] at heq
      exact absurd heq (by simpa using List.find?_eq_none.1 hnone p hp)
    rw [Transport.cancel, if_neg habsent]
  · rename_i p hfind
    obtain ⟨-, -, -, -, hunnumbered⟩ := exists_split_of_find? hfind
    exact hunnumbered.symm

/-- Numbers do not change what a transport does. -/
theorem unnumbered_perform (b : Numbered H) (op : Op H) :
    (b.perform op).transport.unnumbered = op.run b.transport.unnumbered := by
  cases op with
  | publish c => exact b.unnumbered_publish c
  | express i h => exact b.unnumbered_express i h
  | cancel i h => exact b.unnumbered_cancel i h
  | expireAll => rfl
  | refuseNext n => rfl

end Unnumbered

/-- Each number given out is that of one Interest that waits, or has met with one fate; and the
counters of the transport count the fates. -/
structure Accounted (b : Numbered H) : Prop where
  numbered : (b.fates.map (·.1) ++ b.transport.numbers).Perm (List.range b.transport.expressed)
  answered : b.count .answered = b.transport.delivered
  cancelled : b.count .cancelled = b.transport.cancelled

namespace Accounted

variable {b : Numbered H}

omit [DecidableEq H] in
theorem numbered_settled (hb : b.Accounted) (fates : List (Nat × Fate)) {left : List Nat}
    (hwait : b.transport.numbers.Perm (fates.map (·.1) ++ left)) :
    ((fates ++ b.fates).map (·.1) ++ left).Perm (List.range b.transport.expressed) := by
  refine List.perm_iff_count.2 fun n => ?_
  have hnumbered := hb.numbered.count_eq n
  have hsettled := hwait.count_eq n
  simp only [List.map_append, List.count_append] at hnumbered hsettled ⊢
  omega

theorem countP_settled {n k : Nat} {fates : List (Nat × Fate)} {f : Fate}
    (h : fates.countP (·.2 == f) = k) : ((n, f) :: fates).countP (·.2 == f) = k + 1 := by
  simp [h]

omit [DecidableEq H] in
theorem publish (hb : b.Accounted) (c : Content) : (b.publish c).Accounted := by
  rw [Numbered.publish]
  cases hfind : b.transport.pending.find? (·.interest.accepts .exactKey c) with
  | none =>
    rw [Transport.publish, hfind]
    exact ⟨hb.numbered, hb.answered, hb.cancelled⟩
  | some p =>
    have hpublish : b.transport.publish c =
        ({ b.transport with
            store := b.transport.store ++ [c]
            pending := b.transport.pending.eraseP (·.interest.accepts .exactKey c)
            delivered := b.transport.delivered + 1 }, some p) := by
      rw [Transport.publish, hfind]
    obtain ⟨-, -, hperm, -⟩ := Transport.publish_answers hpublish
    rw [hpublish]
    refine ⟨hb.numbered_settled [(p.handler.2, .answered)] (hperm.map _), ?_, ?_⟩
    · exact countP_settled hb.answered
    · exact hb.cancelled

omit [DecidableEq H] in
theorem express (hb : b.Accounted) (i : Interest) (h : H) : (b.express i h).Accounted := by
  rw [express_eq]
  split
  · exact ⟨hb.numbered, hb.answered, hb.cancelled⟩
  · split
    · refine ⟨?_, hb.answered, hb.cancelled⟩
      rw [Transport.numbers, List.map_append, ← List.append_assoc, List.range_succ]
      exact hb.numbered.append_right _
    · refine ⟨?_, countP_settled hb.answered, hb.cancelled⟩
      show (b.transport.expressed :: (b.fates.map (·.1) ++ b.transport.numbers)).Perm
        (List.range (b.transport.expressed + 1))
      rw [List.range_succ]
      exact (hb.numbered.cons _).trans (List.perm_append_singleton _ _).symm

theorem cancel (hb : b.Accounted) (i : Interest) (h : H) : (b.cancel i h).Accounted := by
  rw [Numbered.cancel]
  split
  · exact hb
  · rename_i p hfind
    obtain ⟨pre, post, hpending, hcancel, -⟩ := exists_split_of_find? hfind
    have hperm : b.transport.pending.Perm (p :: (pre ++ post)) := by
      rw [hpending]
      exact List.perm_middle
    rw [hcancel]
    refine ⟨hb.numbered_settled [(p.handler.2, .cancelled)] (hperm.map _), ?_, ?_⟩
    · exact hb.answered
    · exact countP_settled hb.cancelled

omit [DecidableEq H] in
theorem expireAll (hb : b.Accounted) : b.expireAll.Accounted := by
  have hfates : ∀ f, f ≠ Fate.expired →
      (b.transport.pending.map fun p => (p.handler.2, Fate.expired)).countP (·.2 == f) = 0 := by
    intro f hf
    refine List.countP_eq_zero.2 fun x hx => ?_
    obtain ⟨p, -, rfl⟩ := List.mem_map.1 hx
    simpa using hf.symm
  have hnumbers : b.transport.numbers.Perm
      ((b.transport.pending.map fun p => (p.handler.2, Fate.expired)).map (·.1) ++ []) := by
    rw [List.map_map, List.append_nil]
    rfl
  refine ⟨hb.numbered_settled _ hnumbers, ?_, ?_⟩
  · show List.countP _ (_ ++ b.fates) = _
    rw [List.countP_append, Transport.expireAll, hfates .answered (by decide), Nat.zero_add]
    exact hb.answered
  · show List.countP _ (_ ++ b.fates) = _
    rw [List.countP_append, Transport.expireAll, hfates .cancelled (by decide), Nat.zero_add]
    exact hb.cancelled

theorem perform (hb : b.Accounted) (op : Op H) : (b.perform op).Accounted := by
  cases op with
  | publish c => exact hb.publish c
  | express i h => exact hb.express i h
  | cancel i h => exact hb.cancel i h
  | expireAll => exact hb.expireAll
  | refuseNext n => exact ⟨hb.numbered, hb.answered, hb.cancelled⟩

omit [DecidableEq H] in
theorem of_fresh (store : List Content) (refusals : Nat) :
    Accounted ({ transport := { store, refusals } } : Numbered H) :=
  ⟨List.Perm.refl _, rfl, rfl⟩

omit [DecidableEq H] in
theorem expressed_eq (hb : b.Accounted) :
    b.transport.expressed = b.transport.delivered + b.transport.cancelled + b.count .expired +
      b.transport.pending.length := by
  have hlength := hb.numbered.length_eq
  have hcount : ∀ fates : List (Nat × Fate), fates.length =
      fates.countP (·.2 == .answered) + fates.countP (·.2 == .cancelled) +
        fates.countP (·.2 == .expired) := by
    intro fates
    induction fates with
    | nil => rfl
    | cons x fates ih =>
      obtain ⟨n, f⟩ := x
      cases f <;> simp +arith [ih]
  rw [List.length_append, List.length_map, List.length_range, hcount, Transport.numbers,
    List.length_map] at hlength
  rw [← hb.answered, ← hb.cancelled, ← hlength]
  rfl

omit [DecidableEq H] in
theorem one_fate (hb : b.Accounted) {n : Nat} (hn : n < b.transport.expressed) :
    n ∈ b.transport.numbers ∧ (∀ f, (n, f) ∉ b.fates) ∨
      n ∉ b.transport.numbers ∧ ∃ f, (n, f) ∈ b.fates ∧ ∀ f', (n, f') ∈ b.fates → f' = f := by
  have hnodup : (b.fates.map (·.1) ++ b.transport.numbers).Nodup :=
    hb.numbered.nodup_iff.2 List.nodup_range
  obtain ⟨hfates, -, hapart⟩ := List.nodup_append.1 hnodup
  have hmem : n ∈ b.fates.map (·.1) ++ b.transport.numbers :=
    hb.numbered.mem_iff.2 (List.mem_range.2 hn)
  have hsettled : ∀ f, (n, f) ∈ b.fates → n ∉ b.transport.numbers := fun f hf hwaits =>
    hapart n (List.mem_map_of_mem hf) n hwaits rfl
  rcases List.mem_append.1 hmem with hmem | hwaits
  · obtain ⟨⟨_, f⟩, hf, rfl⟩ := List.mem_map.1 hmem
    refine .inr ⟨hsettled f hf, f, hf, fun f' hf' => ?_⟩
    exact (Prod.mk.inj (List.inj_on_of_nodup_map hfates hf' hf rfl)).2
  · exact .inl ⟨hwaits, fun f hf => hsettled f hf hwaits⟩

end Accounted

theorem count_expired_perform (b : Numbered H) (op : Op H) :
    (b.perform op).count .expired = b.count .expired + op.expiring b.transport.unnumbered := by
  cases op with
  | publish c =>
    rw [perform, publish]
    split <;> rfl
  | express i h =>
    rw [perform, express_eq]
    split
    · rfl
    · split <;> rfl
  | cancel i h =>
    rw [perform, cancel]
    split <;> rfl
  | expireAll =>
    have hall : (b.transport.pending.map fun p => (p.handler.2, Fate.expired)).countP
        (·.2 == .expired) = b.transport.pending.length := by
      rw [List.countP_eq_length.2, List.length_map]
      intro x hx
      obtain ⟨p, -, rfl⟩ := List.mem_map.1 hx
      rfl
    show List.countP _ (_ ++ b.fates) = _
    rw [List.countP_append, Transport.expireAll, hall, Nat.add_comm]
    exact congrArg (b.count .expired + ·) (List.length_map _).symm
  | refuseNext n => rfl

end Numbered

end NamedContent
