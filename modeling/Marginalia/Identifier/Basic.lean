import Marginalia.Number.Word
import Marginalia.Span.Basic
import Marginalia.Text.Slice

/-!
# Identifiers

An identifier of a text is its span and its spelling.  Syntax trees number the bytes of the text's
UTF-8 encoding, so byte offsets are turned into indices of characters first.
-/

namespace Marginalia
set_option autoImplicit false

structure Identifier where
  span : Span
  text : List Char
deriving DecidableEq

inductive OffsetFault where
  | outside
  /-- The offset does not fit a word. -/
  | tooWide
deriving DecidableEq

namespace Identifier

/-- The same identifier in a longer text, `offset` characters further on. -/
def shift (offset : Int) (x : Identifier) : Identifier :=
  ⟨⟨x.span.start + offset, x.span.stop + offset⟩, x.text⟩

def byteCount : List Char → Nat
  | [] => 0
  | c :: rest => c.utf8Size + byteCount rest

/-- The index of the character that holds a byte of the encoding of a text whose first index is
`i`.  The byte behind the encoding belongs to the end of the text; there are none after it. -/
def charIndexFrom? (i : Nat) (byte : Nat) : List Char → Option Nat
  | [] => if byte = 0 then some i else none
  | c :: rest =>
    if byte < c.utf8Size then some i else charIndexFrom? (i + 1) (byte - c.utf8Size) rest

/-- The index for a byte.  In a text of ASCII characters every character is one byte, and the byte
is taken as it is.  In any other text the byte must be one of the encoding or the one behind it; a
negative byte is counted from there backwards. -/
def charIndex (content : List Char) (byte : Int) : Except OffsetFault Int :=
  if content.all (fun c => c.toNat < 128) then .ok byte
  else if !Number.fitsWord byte then .error .tooWide
  else
    let forwards := if byte < 0 then byte + (byteCount content + 1 : Nat) else byte
    if forwards < 0 then .error .outside
    else match charIndexFrom? 0 forwards.toNat content with
      | some i => .ok i
      | none => .error .outside

/-- The identifier between two bytes, or no identifier if there is nothing between them. -/
def atBytes (content : List Char) (first last : Int) : Except OffsetFault (List Identifier) :=
  (charIndex content first).bind fun start =>
    (charIndex content last).map fun stop =>
      if start < stop then [⟨⟨start, stop⟩, Text.between content start stop⟩] else []

end Identifier

end Marginalia
