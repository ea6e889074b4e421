import NamedContent.Name

/-!
The URI form of names. A component is written byte by byte, with an escape for every byte that
is not unreserved; a component made only of dots carries three more, so that the empty
component is three dots and no component reads as a step up or in place.
-/

namespace NamedContent

inductive UriFault where
  | missingLeadingSlash
  /-- A percent sign without two hexadecimal digits, at this byte after the scheme. -/
  | invalidEscape (position : Nat)
  | relativeComponent (segment : String)
  deriving DecidableEq

structure UriError where
  uri : String
  fault : UriFault
  deriving DecidableEq

def UriError.message (e : UriError) : String :=
  match e.fault with
  | .missingLeadingSlash => "Name must start with '/': " ++ e.uri
  | .invalidEscape position =>
    "Invalid percent escape at byte " ++ toString position ++ " in " ++ e.uri
  | .relativeComponent segment =>
    "Relative component '" ++ segment ++ "' is not allowed in " ++ e.uri

namespace Uri

def scheme : List Char := "ccnx:".toList

def dot : UInt8 := 46

def isUnreserved (b : UInt8) : Bool :=
  (48 ≤ b && b ≤ 57) || (65 ≤ b && b ≤ 90) || (97 ≤ b && b ≤ 122) ||
    b == 45 || b == 46 || b == 95 || b == 126

def byteChars (b : UInt8) : List Char :=
  if isUnreserved b then [Char.ofNat b.toNat]
  else ['%', Bytes.upperHexDigit (b.toNat / 16), Bytes.upperHexDigit (b.toNat % 16)]

def allDots (c : Component) : Bool := c.all (· == dot)

def componentChars (c : Component) : List Char :=
  (if allDots c then ['.', '.', '.'] else []) ++ c.flatMap byteChars

def nameChars (n : Name) : List Char :=
  if n.isRoot then ['/'] else n.components.flatMap fun c => '/' :: componentChars c

/-- The parts between slashes; there is always one part more than slashes. -/
def segments : List Char → List (List Char)
  | [] => [[]]
  | c :: rest =>
    if c = '/' then [] :: segments rest
    else
      match segments rest with
      | [] => [[c]]
      | s :: ss => (c :: s) :: ss

/-- The bytes that a segment stands for, or where its first bad escape is. The segment starts at
byte `offset`; other characters stand for their UTF-8 bytes. -/
def unescape : (offset : Nat) → List Char → Except Nat Bytes
  | _, [] => .ok []
  | offset, '%' :: hi :: lo :: rest =>
    match Bytes.hexValue? hi, Bytes.hexValue? lo with
    | some h, some l => do
      let bytes ← unescape (offset + 3) rest
      return UInt8.ofNat (16 * h + l) :: bytes
    | _, _ => .error offset
  | offset, c :: rest =>
    if c = '%' then .error offset
    else do
      let bytes ← unescape (offset + c.utf8Size) rest
      return String.utf8EncodeChar c ++ bytes

def readComponent (offset : Nat) (segment : List Char) : Except UriFault Component :=
  match unescape offset segment with
  | .error position => .error (.invalidEscape position)
  | .ok c =>
    if allDots c then
      if c.length < 3 then .error (.relativeComponent (String.ofList segment))
      else .ok (c.drop 3)
    else .ok c

def utf8Length : List Char → Nat
  | [] => 0
  | c :: rest => c.utf8Size + utf8Length rest

/-- Empty segments are passed over; the first offending one ends the reading. -/
def readComponents : (offset : Nat) → List (List Char) → Except UriFault (List Component)
  | _, [] => .ok []
  | offset, segment :: rest => do
    if segment.isEmpty then
      readComponents (offset + 1) rest
    else
      let c ← readComponent offset segment
      let cs ← readComponents (offset + utf8Length segment + 1) rest
      return c :: cs

def withoutScheme (chars : List Char) : List Char :=
  if scheme.isPrefixOf chars then chars.drop scheme.length else chars

def readPath : List Char → Except UriFault Name
  | '/' :: rest => Name.mk <$> readComponents 1 (segments rest)
  | _ => .error .missingLeadingSlash

end Uri

def Component.toUri (c : Component) : String := String.ofList (Uri.componentChars c)

namespace Name

def toUri (n : Name) : String := String.ofList (Uri.nameChars n)

def ofUri (uri : String) : Except UriError Name :=
  match Uri.readPath (Uri.withoutScheme uri.toList) with
  | .ok n => .ok n
  | .error fault => .error ⟨uri, fault⟩

end Name

end NamedContent
