import NamedContent.Bytes

/-!
The self-describing form in which values are kept: a tree of numbers, texts, lists and records.
A record is read by the names of its fields, whichever order they stand in and whatever stands
beside them, or as the list of all its fields. An optional field may be missing or null, and is
written as null. Only whole numbers that are in range are read as numbers.
-/

namespace NamedContent

inductive Value where
  | null
  | bool (b : Bool)
  | integer (i : Int)
  /-- A number that is not written as a whole one. -/
  | real (digits : String)
  | text (s : String)
  | list (vs : List Value)
  | record (fields : List (String × Value))

/-- Values of `α` have a form, and forms may be read as such. -/
class Form (α : Type) where
  toForm : α → Value
  ofForm? : Value → Option α

export Form (toForm ofForm?)

namespace Form

def natBelow? (bound : Nat) : Value → Option Nat
  | .integer i => if 0 ≤ i ∧ i < bound then some i.toNat else none
  | _ => none

def ofNat (n : Nat) : Value := .integer n

instance : Form UInt8 where
  toForm n := ofNat n.toNat
  ofForm? v := UInt8.ofNat <$> natBelow? UInt8.size v

instance : Form UInt32 where
  toForm n := ofNat n.toNat
  ofForm? v := UInt32.ofNat <$> natBelow? UInt32.size v

instance : Form UInt64 where
  toForm n := ofNat n.toNat
  ofForm? v := UInt64.ofNat <$> natBelow? UInt64.size v

instance : Form Nat where
  toForm := ofNat
  ofForm? := natBelow? UInt64.size

instance {α : Type} [Form α] : Form (List α) where
  toForm as := .list (as.map toForm)
  ofForm?
    | .list vs => vs.mapM ofForm?
    | _ => none

instance {α : Type} [Form α] : Form (Option α) where
  toForm
    | none => .null
    | some a => toForm a
  ofForm?
    | .null => some none
    | v => some <$> ofForm? v

/-- The fields of these names, from a record or from a list of just these. -/
def fields? (names : List String) : Value → Option (List (Option Value))
  | .record fields => some (names.map fun name => fields.lookup name)
  | .list vs => if vs.length = names.length then some (vs.map some) else none
  | _ => none

def required {α : Type} [Form α] (v : Option Value) : Option α := v.bind ofForm?

def optional {α : Type} [Form α] (v : Option Value) : Option (Option α) :=
  match v with
  | none => some none
  | some v => ofForm? v

def alternative? : Value → Option (String × Option Value)
  | .text name => some (name, none)
  | .record [(name, v)] => some (name, some v)
  | _ => none

/-- An alternative that holds nothing may still be followed by null. -/
def holdsNothing : Option Value → Bool
  | none => true
  | some .null => true
  | some _ => false

end Form

end NamedContent
