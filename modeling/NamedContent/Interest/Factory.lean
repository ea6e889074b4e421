import NamedContent.Interest

/-!
Ways to make Interests: for everything under a name, for the content that follows or comes last
in name order, and for all but some components.
-/

namespace NamedContent.Interest

def ofName (name : Name) : Interest := { name }

def ofUri (uri : String) : Except UriError Interest := ofName <$> Name.ofUri uri

def withPublisher (name : Name) (publisher : Option PublisherId) : Interest :=
  { name, publisher }

def withAdditional (name : Name) (additional : UInt64) (publisher : Option PublisherId) :
    Interest :=
  { name, publisher, additional := some additional }

def construct (name : Name) (exclude : Option ExcludeFilter) (order : Option OrderPreference)
    (prefixCount : Option UInt64) (publisher : Option PublisherId)
    (additional : Option UInt64) : Interest :=
  { name, exclude, order, prefixCount, publisher, additional }

def leftByName : OrderPreference := .union .left .byName

def rightByName : OrderPreference := .union .right .byName

/-- Unless a count is given, a candidate shares all components but the last. -/
def ordered (name : Name) (exclude : Option ExcludeFilter) (order : OrderPreference)
    (prefixCount : Option UInt64) : Interest :=
  construct name exclude (some order)
    (some (prefixCount.getD (UInt64.ofNat (name.length - 1)))) none none

def next (name : Name) : Interest := ordered name none leftByName none

def nextWithin (name : Name) (prefixCount : UInt64) : Interest :=
  ordered name none leftByName (some prefixCount)

def nextExcluding (name : Name) (omissions : List Component) (prefixCount : Option UInt64) :
    Except ExcludeFault Interest := do
  let exclude ← ExcludeFilter.ofOmissions omissions
  return ordered name exclude leftByName prefixCount

/-- For the content that follows `c`, whose digest takes part in the order. -/
def nextAfter (c : Content) (prefixCount : Option UInt64) : Interest :=
  nextWithin c.fullName (prefixCount.getD (UInt64.ofNat (c.fullName.length - 2)))

def last (name : Name) : Interest := ordered name none rightByName none

def lastWithin (name : Name) (prefixCount : UInt64) : Interest :=
  ordered (name.take prefixCount.toNat) none rightByName (some prefixCount)

def lastExcluding (name : Name) (omissions : List Component) (prefixCount : Option UInt64) :
    Except ExcludeFault Interest := do
  let exclude ← ExcludeFilter.ofOmissions omissions
  return ordered name exclude rightByName prefixCount

def lastFiltered (name : Name) (exclude : ExcludeFilter) : Interest :=
  ordered name (some exclude) rightByName none

def excludingFrom (name : Name) (omissions : List Component) (publisher : Option PublisherId)
    (additional : Option UInt64) : Except ExcludeFault Interest := do
  let exclude ← ExcludeFilter.ofComponents omissions
  return construct name (some exclude) none none publisher additional

def excluding (name : Name) (omissions : List Component) : Except ExcludeFault Interest :=
  excludingFrom name omissions none none

end NamedContent.Interest
