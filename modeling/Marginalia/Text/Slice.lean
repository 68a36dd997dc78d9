/-!
# Slices and pieces of a text

Indices count characters.  A negative index counts from the end of the text, and an index outside
the text stands for its nearest end.
-/

namespace Marginalia.Text
set_option autoImplicit false

def place (length : Nat) (i : Int) : Nat :=
  if i < 0 then (length + i).toNat else i.toNat

def upTo (cs : List Char) (i : Int) : List Char := cs.take (place cs.length i)

def onward (cs : List Char) (i : Int) : List Char := cs.drop (place cs.length i)

def between (cs : List Char) (i j : Int) : List Char :=
  (upTo cs j).drop (place cs.length i)

/-- The pieces between the separators: always one more than there are separators. -/
def splitOn (separator : Char) : List Char → List (List Char)
  | [] => [[]]
  | c :: rest =>
    if c = separator then [] :: splitOn separator rest
    else match splitOn separator rest with
      | [] => [[c]]
      | piece :: pieces => (c :: piece) :: pieces

/-- The part before the last separator and the part after it, if there is a separator. -/
def cutLast? (separator : Char) (cs : List Char) : Option (List Char × List Char) :=
  let tail := cs.reverse.takeWhile (· ≠ separator)
  if tail.length = cs.length then none
  else some (cs.take (cs.length - tail.length - 1), tail.reverse)

def dropEnding? (ending cs : List Char) : Option (List Char) :=
  if ending.isSuffixOf cs then some (cs.take (cs.length - ending.length)) else none

theorem place_of_nonneg {length : Nat} {i : Int} (h : 0 ≤ i) : place length i = i.toNat := by
  simp [place, Int.not_lt.mpr h]

theorem between_of_nonneg {cs : List Char} {i j : Int} (hi : 0 ≤ i) (hj : 0 ≤ j) :
    between cs i j = (cs.take j.toNat).drop i.toNat := by
  rw [between, upTo, place_of_nonneg hi, place_of_nonneg hj]

theorem splitOn_ne_nil (separator : Char) (cs : List Char) : splitOn separator cs ≠ [] := by
  cases cs with
  | nil => simp [splitOn]
  | cons c rest =>
    simp only [splitOn]
    split
    · simp
    · split <;> simp

theorem length_splitOn (separator : Char) (cs : List Char) :
    (splitOn separator cs).length = cs.count separator + 1 := by
  induction cs with
  | nil => simp [splitOn]
  | cons c rest ih =>
    simp only [splitOn]
    split
    · next h => simp [h, ih]
    · next h =>
      split
      · next he => exact absurd he (splitOn_ne_nil separator rest)
      · next piece pieces he =>
        rw [he] at ih
        simpa [List.count_cons, h] using ih

end Marginalia.Text
