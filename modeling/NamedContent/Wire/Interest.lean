import NamedContent.Wire.Element

/-!
The wire form of Interests: the name, then the constraints that are present in a fixed order,
each told by its tag. Elements of other tags may follow; they are passed over up to the closing
byte. Where they are irregular the rest of the input is dropped, and no closing byte is needed.
-/

namespace NamedContent.Wire

def optional {α : Type} (write : α → Bytes) : Option α → Bytes
  | none => []
  | some a => write a

def interestFields (i : Interest) : Bytes :=
  name i.name ++
    optional (fun n => integer Tag.prefixCount n.toNat) i.prefixCount ++
    optional (fun n => integer Tag.additional n.toNat) i.additional ++
    optional publisher i.publisher ++
    optional exclude i.exclude ++
    optional (fun o => integer Tag.order o.bits.toNat) i.order ++
    optional (fun o => integer Tag.origin o.bits.toNat) i.origin ++
    optional (fun n => integer Tag.scope n.toNat) i.scope ++
    optional (fun n => integer Tag.count n.toNat) i.count ++
    optional (leaf Tag.nonce) i.nonce ++
    optional (leaf Tag.responseFilter) i.responseFilter

/-- Only Interests without a forbidden field combination have a wire form. -/
def interest (i : Interest) : Except WireFault Bytes :=
  match i.fault? with
  | some fault => .error (.forbidden fault)
  | none => .ok (composite Tag.interest (interestFields i))

namespace Reader

def ifAhead {α : Type} (expected : UInt8 → Bool) (r : Reader α) : Reader (Option α) := do
  match ← peek with
  | some t => if expected t then some <$> r else return none
  | none => return none

/-- Passes over further elements and the closing byte; this never fails. -/
def finish (s : Bytes) : Except WireFault Unit × Bytes :=
  match s with
  | [] => (.ok (), [])
  | t :: tail =>
    if t = Tag.close then (.ok (), tail)
    else
      match h : skipLeaf "Interest extension" (t :: tail) with
      | (.ok a, rest) =>
        have : rest.length < (t :: tail).length := shortens_skipLeaf _ _ a rest h
        finish rest
      | (.error _, _) => (.ok (), [])
termination_by s.length
decreasing_by exact this

def interest : Reader Interest := do
  tag "Interest" Tag.interest
  match ← ifAhead (· == Tag.name) name with
  | none => fail .missingName
  | some name =>
    let prefixCount ←
      ifAhead (· == Tag.prefixCount) (integer64 Tag.prefixCount "NameComponentCount")
    let additional ←
      ifAhead (· == Tag.additional) (integer64 Tag.additional "AdditionalNameComponents")
    let publisher ← ifAhead (fun t => (publisherKind? t).isSome) publisher
    let exclude ← ifAhead (· == Tag.exclude) exclude
    let order ← ifAhead (· == Tag.order) (integer32 Tag.order "OrderPreference")
    let origin ← ifAhead (· == Tag.origin) (integer32 Tag.origin "AnswerOriginKind")
    let scope ← ifAhead (· == Tag.scope) (integer32 Tag.scope "Scope")
    let count ← ifAhead (· == Tag.count) (integer32 Tag.count "Count")
    let nonce ← ifAhead (· == Tag.nonce) (leaf Tag.nonce "Nonce")
    let responseFilter ←
      ifAhead (· == Tag.responseFilter) (leaf Tag.responseFilter "ResponseFilter")
    finish
    return { name, prefixCount, additional, publisher, exclude, scope, count, nonce, responseFilter
             order := order.map .mk, origin := origin.map .mk }

end Reader

end NamedContent.Wire
