import NamedContent.Bytes

/-!
Hierarchical names: sequences of byte components. Names are ordered component by component,
and a name sorts before its extensions.
-/

namespace NamedContent

abbrev Component := Bytes

structure Name where
  components : List Component
  deriving DecidableEq

namespace Name

def length (n : Name) : Nat := n.components.length

def isRoot (n : Name) : Bool := n.components.isEmpty

def component? (n : Name) (i : Nat) : Option Component := n.components[i]?

def last? (n : Name) : Option Component := n.components.getLast?

def append (n : Name) (c : Component) : Name := ⟨n.components ++ [c]⟩

@[simp] theorem length_append (n : Name) (c : Component) :
    (n.append c).length = n.length + 1 := by
  simp [append, length]

def take (n : Name) (k : Nat) : Name := ⟨n.components.take k⟩

/-- Both names have `k` components at least, and their first `k` agree. -/
def agreesUpTo (n other : Name) (k : Nat) : Bool :=
  decide (k ≤ n.length) && decide (k ≤ other.length) &&
    n.components.take k == other.components.take k

def isPrefixOf (n other : Name) : Bool := n.agreesUpTo other n.length

theorem isPrefixOf_iff {n other : Name} :
    n.isPrefixOf other = true ↔ n.components <+: other.components := by
  simp only [isPrefixOf, agreesUpTo, length, Nat.le_refl, decide_true, Bool.true_and,
    List.take_length, Bool.and_eq_true, beq_iff_eq]
  constructor
  · rintro ⟨_, h⟩
    exact h ▸ List.take_prefix _ _
  · intro h
    exact ⟨decide_eq_true h.length_le, List.prefix_iff_eq_take.1 h⟩

instance : LT Name := ⟨fun a b => a.components < b.components⟩

instance : DecidableLT Name :=
  fun a b => inferInstanceAs (Decidable (a.components < b.components))

instance : Ord Name := ⟨fun a b => compareOfLessAndEq a b⟩

end Name

end NamedContent
