import Mathlib.Data.List.Chain
import NamedContent.Interest.Factory
import NamedContent.Proofs.NameMatching

/-!
Walks through contents in name order. The Interest for what follows a content has the full name of
that content and asks for an order, so what answers it by its own name sorts after that full name.
A content with one component less than the shared ones would be judged by its full name instead;
but then that has no more than the shared components, and the name it is to sort after goes on from
there. So nothing answers that does not come later, and a walk from each content to one that
follows it never comes back, whoever is trusted on the way.
-/

namespace NamedContent

namespace Name

variable {a b : Name}

theorem lt_irrefl (a : Name) : ¬ a < a := List.lt_irrefl (α := Component) a.components

theorem lt_of_agreesUpTo_length (h : b.agreesUpTo a a.length = true)
    (hlength : a.length < b.length) : a < b := by
  refine lt_of_isPrefixOf ?_ hlength
  rwa [isPrefixOf, agreesUpTo_comm]

end Name

namespace Content

theorem name_lt_fullName (c : Content) : c.name < c.fullName := by
  refine Name.lt_of_isPrefixOf (Name.isPrefixOf_iff.2 (List.prefix_append _ _)) ?_
  rw [length_fullName]
  exact Nat.lt_succ_self _

/-- The count, if one is given, leaves out at least the last component of the content's name. -/
def Spans (c : Content) (prefixCount : Option UInt64) : Prop :=
  ∀ k, prefixCount = some k → k.toNat < c.name.length

/-- Somebody who walks in name order may go on from `c` to `d`. -/
def LeadsTo (c d : Content) : Prop :=
  ∃ prefixCount trust, c.Spans prefixCount ∧
    (Interest.nextAfter c prefixCount).accepts trust d = true

end Content

namespace Interest

variable {c d : Content} {prefixCount : Option UInt64} {trust : Trust}

theorem sharedCount_nextAfter_le (h : c.Spans prefixCount) :
    (nextAfter c prefixCount).sharedCount ≤ c.name.length - 1 := by
  have hshared : (nextAfter c prefixCount).sharedCount =
      (prefixCount.getD (UInt64.ofNat (c.fullName.length - 2))).toNat := rfl
  rw [hshared]
  cases hcount : prefixCount with
  | some k => exact Nat.le_sub_one_of_lt (h k hcount)
  | none =>
    rw [Option.getD_none, UInt64.toNat_ofNat', Content.length_fullName]
    exact Nat.mod_le _ _

theorem not_sorts_of_short (h : d.name.length + 1 ≤ c.name.length)
    (hbegins : c.fullName.agreesUpTo d.fullName (d.name.length + 1) = true) :
    ¬ c.fullName < d.fullName := by
  refine Name.lt_asymm (Name.lt_of_agreesUpTo_length ?_ ?_)
  · rwa [Content.length_fullName]
  · rw [Content.length_fullName, Content.length_fullName]
    omega

theorem fullName_lt_of_nextAfter (hspans : c.Spans prefixCount)
    (h : (nextAfter c prefixCount).accepts trust d = true) : c.fullName < d.name := by
  have hshared := sharedCount_nextAfter_le hspans
  obtain ⟨hmeets, -⟩ := accepts_iff_meets.1 h
  have hbegins := hmeets.begins.resolve_right fun hcase => absurd hcase.1 nofun
  have hname : (nextAfter c prefixCount).name.length = c.name.length + 1 := c.length_fullName
  by_cases hshort : d.name.length + 1 = (nextAfter c prefixCount).sharedCount
  · have hjudged : (nextAfter c prefixCount).candidate d = d.fullName := if_pos hshort
    rw [← hshort] at hbegins hshared
    rcases hmeets.sorts nofun with hsorts | ⟨-, hdigest⟩
    · rw [hjudged] at hsorts
      exact absurd hsorts (not_sorts_of_short (by omega) hbegins)
    · rw [Content.length_fullName, hname] at hdigest
      omega
  · have hjudged : (nextAfter c prefixCount).candidate d = d.name := if_neg hshort
    rcases hmeets.sorts nofun with hsorts | ⟨hcount, -⟩
    · rwa [hjudged] at hsorts
    · exact absurd hcount hshort

end Interest

namespace Content

variable {c d : Content}

theorem LeadsTo.fullName_lt (h : c.LeadsTo d) : c.fullName < d.name := by
  obtain ⟨_, _, hspans, haccepts⟩ := h
  exact Interest.fullName_lt_of_nextAfter hspans haccepts

theorem LeadsTo.name_lt (h : c.LeadsTo d) : c.name < d.name :=
  Name.lt_trans c.name_lt_fullName h.fullName_lt

theorem pairwise_of_isChain {cs : List Content} (h : cs.IsChain LeadsTo) :
    (cs.map (·.name)).Pairwise (· < ·) := by
  have hnames : (cs.map (·.name)).IsChain (· < ·) :=
    (List.isChain_map _).2 (h.imp fun _ _ hleads => hleads.name_lt)
  have htrans : IsTrans Name (· < ·) := ⟨fun _ _ _ => Name.lt_trans⟩
  exact List.isChain_iff_pairwise.1 hnames

/-- Going on from a content in name order always advances: whatever answers sorts after the
content's full name, and so after its name. Nothing is answered with itself, and the names on a
walk increase, so that it comes to no name twice. -/
theorem next_advances :
    (∀ (c d : Content) (trust : Trust) (prefixCount : Option UInt64), c.Spans prefixCount →
      (Interest.nextAfter c prefixCount).accepts trust d = true →
        c.fullName < d.name ∧ c.name < c.fullName) ∧
      (∀ (c : Content) (trust : Trust) (prefixCount : Option UInt64), c.Spans prefixCount →
        (Interest.nextAfter c prefixCount).accepts trust c = false) ∧
      ∀ cs : List Content, cs.IsChain LeadsTo →
        (cs.map (·.name)).Pairwise (· < ·) ∧ (cs.map (·.name)).Nodup := by
  refine ⟨fun c d trust prefixCount hspans haccepts => ?_, fun c trust prefixCount hspans => ?_,
    fun cs hwalk => ?_⟩
  · exact ⟨Interest.fullName_lt_of_nextAfter hspans haccepts, c.name_lt_fullName⟩
  · rw [← Bool.not_eq_true]
    intro haccepts
    have hself : c.LeadsTo c := ⟨prefixCount, trust, hspans, haccepts⟩
    exact Name.lt_irrefl _ hself.name_lt
  · have hpairwise := pairwise_of_isChain hwalk
    refine ⟨hpairwise, hpairwise.imp ?_⟩
    rintro a _ hlt rfl
    exact Name.lt_irrefl a hlt

def sampleEntry (n : UInt8) : Content := .unsigned ⟨[[0x6c], [n]]⟩ [n]

def sampleBeside : Content := .unsigned ⟨[[0x6d]]⟩ []

theorem next_advances_sample :
    (sampleEntry 1).Spans none ∧
      (Interest.nextAfter (sampleEntry 1) none).accepts .exactKey (sampleEntry 2) = true ∧
      (sampleEntry 1).fullName < (sampleEntry 2).name ∧
      (Interest.nextAfter (sampleEntry 1) none).accepts .exactKey (sampleEntry 1) = false ∧
      [sampleEntry 1, sampleEntry 2, sampleBeside].IsChain LeadsTo ∧
      ([sampleEntry 1, sampleEntry 2, sampleBeside].map (·.name)).Nodup := by
  have hspans : (sampleEntry 1).Spans none := nofun
  have haccepts : (Interest.nextAfter (sampleEntry 1) none).accepts .exactKey (sampleEntry 2) =
      true := by decide
  have hout : (sampleEntry 2).Spans (some 0) := by
    rintro k ⟨⟩
    decide
  have hwalk : [sampleEntry 1, sampleEntry 2, sampleBeside].IsChain LeadsTo :=
    .cons_cons ⟨none, .exactKey, hspans, haccepts⟩
      (.cons_cons ⟨some 0, .nobody, hout, by decide⟩ (.singleton _))
  obtain ⟨hsorts, hself, hwalks⟩ := next_advances
  exact ⟨hspans, haccepts, (hsorts _ _ _ _ hspans haccepts).1, hself _ _ _ hspans, hwalk,
    (hwalks _ hwalk).2⟩

end Content

end NamedContent
