import Marginalia.Decode.Fault
import Marginalia.Number.Word
import Marginalia.Text.Blank
import Marginalia.Value.Basic

/-!
# Lenient decoding

Integers are also read from booleans, from numbers without a fraction and from their text.
Booleans are also read from one and zero and from the usual words.  Texts and lists are never
made from anything else.
-/

namespace Marginalia.Decode
set_option autoImplicit false

/-- Read past leading zeros up to a digit that counts or a minus sign; `last` is the last of the
zeros and underscores read so far. -/
def dropZeros (last : Char) : List Char → Option (List Char)
  | [] => some [last]
  | c :: rest =>
    if c = '0' ∨ c = '_' then dropZeros c rest
    else if c.isDigit ∨ c = '-' then some (c :: rest)
    else if c = '.' then some (last :: c :: rest)
    else none

def significant? : List Char → Option (List Char)
  | [] => none
  | c :: rest =>
    if c = '0' then dropZeros c rest
    else if c.isDigit then some (c :: rest)
    else none

def signed? : List Char → Option (List Char)
  | '+' :: rest => significant? rest
  | '-' :: rest => (significant? rest).map ('-' :: ·)
  | cs => significant? cs

def dropZeroFraction (cs : List Char) : List Char :=
  match cs.dropWhile (· ≠ '.') with
  | _ :: fraction =>
    if !fraction.isEmpty && fraction.all (· == '0') then cs.takeWhile (· ≠ '.') else cs
  | [] => cs

def hasDoubleUnderscore : List Char → Bool
  | '_' :: '_' :: _ => true
  | _ :: rest => hasDoubleUnderscore rest
  | [] => false

def dropUnderscores (cs : List Char) : List Char :=
  if cs.head? == some '_' || cs.getLast? == some '_' || hasDoubleUnderscore cs then cs
  else cs.filter (· ≠ '_')

def decimalValue (cs : List Char) : Nat :=
  cs.foldl (fun n c => 10 * n + (c.toNat - 48)) 0

def integerDigitLimit : Nat := 4300

def dropMinus : List Char → List Char
  | '-' :: rest => rest
  | cs => cs

def leadingDigits (cs : List Char) : List Char :=
  let digits := (dropMinus cs).takeWhile Char.isDigit
  if digits.head? == some '0' then [] else digits

def plainNat? (cs : List Char) : Option Nat :=
  if cs.isEmpty || !cs.all Char.isDigit then none
  else if cs.head? == some '0' && 1 < cs.length then none
  else if integerDigitLimit < cs.length then none
  else some (decimalValue cs)

def plainInt? : List Char → Option Int
  | '-' :: rest => (plainNat? rest).map fun n => -(n : Int)
  | cs => (plainNat? cs).map fun n => (n : Int)

/-- The text of an integer: white space around it, a sign, leading zeros, single underscores
between the digits and a fraction of zeros are allowed, and zeros may also stand before a minus
sign.  A text that starts with too many digits is oversized whatever follows them; too many digits
anywhere else cannot be read. -/
def integerText (s : String) : Checked Int :=
  if integerDigitLimit < (leadingDigits s.toList).length then Checked.fault .oversizedInteger
  else
    let cleaned := (signed? (Text.trim Text.isWhiteSpace s.toList)).map fun cs =>
      dropUnderscores (dropZeroFraction cs)
    match cleaned.bind plainInt? with
    | some n => .ok n
    | none => Checked.fault .unreadableInteger

/-- Numbers in binary64 are read as integers strictly below this magnitude, two to the power 63. -/
def floatIntegerLimit : Int := 0x8000000000000000

def integerOfFloat (x : Binary64) : Checked Int :=
  if !x.isFinite then Checked.fault .infiniteInteger
  else match x.toInt? with
    | none => Checked.fault .fractionalInteger
    | some n =>
      if -floatIntegerLimit < n && n < floatIntegerLimit then .ok n
      else Checked.fault .oversizedInteger

def integer : Value → Checked Int
  | .int n => .ok n
  | .bool b => .ok (if b then 1 else 0)
  | .float x => integerOfFloat x
  | .str s => integerText s
  | _ => Checked.fault .notInteger

def integerFrom (least : Int) (v : Value) : Checked Int :=
  match integer v with
  | .ok n => if least ≤ n then .ok n else Checked.fault .belowMinimum
  | .error es => .error es

def trueWords : List String := ["1", "true", "t", "yes", "y", "on"]

def falseWords : List String := ["0", "false", "f", "no", "n", "off"]

def booleanOfInt (n : Int) : Checked Bool :=
  if n = 1 then .ok true else if n = 0 then .ok false else Checked.fault .unreadableBoolean

def booleanText (s : String) : Checked Bool :=
  let word := String.ofList (s.toList.map Char.toLower)
  if trueWords.contains word then .ok true
  else if falseWords.contains word then .ok false
  else Checked.fault .unreadableBoolean

/-- An integer is only looked at as a boolean if it fits a word. -/
def boolean : Value → Checked Bool
  | .bool b => .ok b
  | .int n => if Number.fitsWord n then booleanOfInt n else Checked.fault .notBoolean
  | .float x =>
    match integerOfFloat x with
    | .ok n => booleanOfInt n
    | .error _ => Checked.fault .notBoolean
  | .str s => booleanText s
  | _ => Checked.fault .notBoolean

def string : Value → Checked String
  | .str s => .ok s
  | _ => Checked.fault .notString

def exactly (word : String) (v : Value) : Checked Unit :=
  match v with
  | .str s => if s = word then .ok () else Checked.fault .unknownWord
  | _ => Checked.fault .unknownWord

def nullable {α : Type} (decode : Value → Checked α) : Value → Checked (Option α)
  | .null => .ok none
  | v => some <$> decode v

def listOf {α : Type} (decode : Value → Checked α) : Value → Checked (List α)
  | .list vs => Checked.items decode 0 vs
  | _ => Checked.fault .notList

def required {α : Type} (entries : Entries) (key : String) (decode : Value → Checked α) :
    Checked α :=
  match entries.get? key with
  | some v => (decode v).under (.key key)
  | none => Checked.under (.key key) (Checked.fault .missing)

def defaulted {α : Type} (entries : Entries) (key : String) (default : α)
    (decode : Value → Checked α) : Checked α :=
  match entries.get? key with
  | some v => (decode v).under (.key key)
  | none => .ok default

end Marginalia.Decode
