import Marginalia.Number.Binary64

/-!
# Values

Options, directive values and caller-supplied data are values of one dynamic type.  A map keeps
the order in which its keys were first set.
-/

namespace Marginalia
set_option autoImplicit false

inductive Value where
  | null
  | bool (b : Bool)
  | int (n : Int)
  | float (x : Binary64)
  | str (s : String)
  | list (items : List Value)
  | map (entries : List (String × Value))
deriving Inhabited

/-- Named values in the order of their first setting. -/
abbrev Entries := List (String × Value)

namespace Entries

def get? (entries : Entries) (key : String) : Option Value :=
  (entries.find? (·.1 == key)).map (·.2)

/-- Set a key: in place if it is there, at the end if it is not. -/
def set (key : String) (value : Value) : Entries → Entries
  | [] => [(key, value)]
  | (k, v) :: rest => if k = key then (k, value) :: rest else (k, v) :: set key value rest

def merge (base added : Entries) : Entries :=
  added.foldl (fun entries (k, v) => entries.set k v) base

theorem get?_set_self (key : String) (value : Value) (entries : Entries) :
    (entries.set key value).get? key = some value := by
  induction entries with
  | nil => simp [set, get?]
  | cons e rest ih =>
    obtain ⟨k, v⟩ := e
    by_cases h : k = key
    · simp [set, get?, h]
    · simpa [set, get?, h] using ih

theorem get?_set_of_ne {key other : String} (h : other ≠ key) (value : Value) (entries : Entries) :
    (entries.set key value).get? other = entries.get? other := by
  induction entries with
  | nil => simp [set, get?, Ne.symm h]
  | cons e rest ih =>
    obtain ⟨k, v⟩ := e
    by_cases hk : k = key
    · simp [set, get?, hk, Ne.symm h]
    · by_cases ho : k = other
      · simp [set, get?, ho, h]
      · simpa [set, get?, hk, ho] using ih

end Entries

namespace Value

/-- Values that count as set: everything but null, false, zero and what is empty. -/
def truthy : Value → Bool
  | null => false
  | bool b => b
  | int n => n != 0
  | float x => !x.isZero
  | str s => !s.isEmpty
  | list items => !items.isEmpty
  | map entries => !entries.isEmpty

/-- The value as an integer in a comparison: booleans count as one and zero. -/
def asInt? : Value → Option Int
  | bool b => some (if b then 1 else 0)
  | int n => some n
  | float x => x.toInt?
  | _ => none

def equalsInt (v : Value) (n : Int) : Bool := v.asInt? == some n

end Value

end Marginalia
