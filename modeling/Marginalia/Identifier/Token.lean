import Marginalia.Identifier.Basic
import Marginalia.Text.Blank

/-!
# Identifiers by tokens

Without a syntax tree, identifiers are the words of the text that are not keywords.  The text is
read one character at a time: comments, quoted texts, the text of templates and numbers hold no
words, and the code inside a template is read like any other.  A word behind a point is an
identifier even if it is a keyword.  Every character beyond ASCII is part of a word or a number.
-/

namespace Marginalia.Token
set_option autoImplicit false

def keywords : List String := [
  "abstract", "any", "as", "async", "await", "boolean", "break", "case", "catch", "class",
  "const", "continue", "debugger", "declare", "default", "delete", "do", "else", "enum", "export",
  "extends", "false", "finally", "for", "from", "function", "get", "if", "implements", "import",
  "in", "infer", "instanceof", "interface", "is", "keyof", "let", "namespace", "never", "new",
  "null", "number", "object", "of", "private", "protected", "public", "readonly", "return",
  "satisfies", "set", "static", "string", "super", "switch", "symbol", "this", "throw", "true",
  "try", "type", "typeof", "undefined", "unknown", "var", "void", "while", "with", "yield"]

def isWordStart (c : Char) : Bool :=
  c.isAlpha || c == '_' || c == '$' || 128 ≤ c.toNat

def isWordPart (c : Char) : Bool := isWordStart c || c.isDigit

def isNumberPart (c : Char) : Bool := isWordPart c || c == '.'

/-- What the next character belongs to. -/
inductive Mode where
  | code
  | lineComment
  /-- Inside a block comment; `star` says whether a star came last. -/
  | blockComment (star : Bool)
  /-- At the star that opens a block comment. -/
  | blockOpening
  | quoted (quote : Char) (escaped : Bool)
  | template (escaped : Bool)
  /-- At the brace that opens the code inside a template. -/
  | codeOpening
  | number
  /-- Inside a word; its characters so far are kept backwards. -/
  | word (start : Nat) (chars : List Char)
deriving DecidableEq

structure State where
  mode : Mode := .code
  /-- Braces open in each piece of code inside a template, the innermost first. -/
  depths : List Nat := []
  /-- The last token was a point. -/
  afterPoint : Bool := false
deriving DecidableEq

/-- The identifier of a finished word, unless it is a keyword that no point stands before. -/
def wordIdentifier? (afterPoint : Bool) (start : Nat) (chars : List Char) : Option Identifier :=
  let text := chars.reverse
  if afterPoint || !keywords.contains (String.ofList text) then
    some ⟨⟨start, start + text.length⟩, text⟩
  else none

def State.closeBrace (s : State) : State :=
  match s.depths with
  | [] => { s with mode := .code, afterPoint := false }
  | 0 :: outer => { mode := .template false, depths := outer, afterPoint := false }
  | (n + 1) :: outer => { mode := .code, depths := n :: outer, afterPoint := false }

def State.openBrace (s : State) : State :=
  match s.depths with
  | [] => { s with mode := .code, afterPoint := false }
  | n :: outer => { mode := .code, depths := (n + 1) :: outer, afterPoint := false }

/-- Read a character of code at index `i`; `next` is the one after it. -/
def State.readCode (s : State) (i : Nat) (c : Char) (next : Option Char) : State :=
  let token (mode : Mode) : State := { s with mode, afterPoint := false }
  if c.toNat < 128 ∧ Text.isWhiteSpace c then { s with mode := .code }
  else if c = '/' ∧ next = some '/' then { s with mode := .lineComment }
  else if c = '/' ∧ next = some '*' then { s with mode := .blockOpening }
  else if c.toNat = 39 ∨ c.toNat = 34 then token (.quoted c false)
  else if c.toNat = 96 then token (.template false)
  else if c.isDigit then token .number
  else if isWordStart c || (c == '#' && (next.map isWordStart).getD false) then
    { s with mode := .word i [c] }
  else if c = '\x7b' then s.openBrace
  else if c = '\x7d' then s.closeBrace
  else { s with mode := .code, afterPoint := c == '.' }

def State.read (s : State) (i : Nat) (c : Char) (next : Option Char) : State × Option Identifier :=
  match s.mode with
  | .code => (s.readCode i c next, none)
  | .lineComment => ({ s with mode := if c = '\n' then .code else .lineComment }, none)
  | .blockOpening => ({ s with mode := .blockComment false }, none)
  | .blockComment star =>
    ({ s with mode := if star && c == '/' then .code else .blockComment (c == '*') }, none)
  | .quoted quote true => ({ s with mode := .quoted quote false }, none)
  | .quoted quote false =>
    ({ s with mode :=
        if c = quote then .code else .quoted quote (c == '\\') }, none)
  | .template true => ({ s with mode := .template false }, none)
  | .template false =>
    ({ s with mode :=
        if c.toNat = 96 then .code
        else if c = '$' ∧ next = some '\x7b' then .codeOpening
        else .template (c == '\\') }, none)
  | .codeOpening => ({ s with mode := .code, depths := 0 :: s.depths }, none)
  | .number => (if isNumberPart c then s else s.readCode i c next, none)
  | .word start chars =>
    if isWordPart c then ({ s with mode := .word start (c :: chars) }, none)
    else
      (({ s with afterPoint := false } : State).readCode i c next,
        wordIdentifier? s.afterPoint start chars)

/-- The identifiers of a text that starts at index `i`. -/
def scan (s : State) (i : Nat) : List Char → List Identifier
  | [] =>
    match s.mode with
    | .word start chars => (wordIdentifier? s.afterPoint start chars).toList
    | _ => []
  | c :: rest =>
    let (s', found) := s.read i c rest.head?
    found.toList ++ scan s' (i + 1) rest

def identifiers (content : List Char) : List Identifier := scan {} 0 content

end Marginalia.Token
