import NamedContent.Version

/-!
What a retrieval of versions is configured with.
-/

namespace NamedContent

inductive ConfigFault where
  | tooFewExcludes (n : Nat)
  | zeroLifetime
  | zeroRefreshInterval
  deriving DecidableEq

def minExcludes : Nat := 2

def ConfigFault.message (fault : ConfigFault) : String :=
  "Invalid configuration: " ++
    match fault with
    | .tooFewExcludes n =>
      "max_excludes_per_interest must be at least " ++ toString minExcludes ++
        ", got " ++ toString n
    | .zeroLifetime => "interest_lifetime cannot be 0"
    | .zeroRefreshInterval => "refresh_interval cannot be 0"

structure Config where
  /-- How long an Interest stays expressed before it is due to be expressed anew. -/
  lifetime : Duration := .ofSeconds 4
  /-- A partition with more exclusions than this is split. -/
  maxExcludes : Nat := 200
  /-- How many components follow the base name in a full name: version, segment and digest. -/
  additional : Option UInt64 := some 3
  refreshInterval : Duration := .ofParts 0 500000000
  deriving DecidableEq

namespace Config

def fault? (c : Config) : Option ConfigFault :=
  if c.maxExcludes < minExcludes then some (.tooFewExcludes c.maxExcludes)
  else if c.lifetime.isZero then some .zeroLifetime
  else if c.refreshInterval.isZero then some .zeroRefreshInterval
  else none

def Valid (c : Config) : Prop := c.fault? = none

def validate (c : Config) : Except ConfigFault Unit :=
  match c.fault? with
  | some fault => .error fault
  | none => .ok ()

/-- Choices of some fields; the others keep their defaults. -/
structure Choice where
  lifetime : Option Duration := none
  maxExcludes : Option Nat := none
  additional : Option (Option UInt64) := none
  refreshInterval : Option Duration := none

def ofChoice (choice : Choice) : Config :=
  let defaults : Config := {}
  { lifetime := choice.lifetime.getD defaults.lifetime
    maxExcludes := choice.maxExcludes.getD defaults.maxExcludes
    additional := choice.additional.getD defaults.additional
    refreshInterval := choice.refreshInterval.getD defaults.refreshInterval }

def build (choice : Choice) : Except ConfigFault Config :=
  match (ofChoice choice).fault? with
  | some fault => .error fault
  | none => .ok (ofChoice choice)

end Config

end NamedContent
