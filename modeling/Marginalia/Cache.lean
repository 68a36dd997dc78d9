import Marginalia.Digest
import Marginalia.Text.Encoding
import Marginalia.Value.Canonical

/-!
# Caches

A cache remembers which checker was built for which options.  The key is the digest of the
canonical text of the options, so options that differ only in the order of their keys share a
checker.
-/

namespace Marginalia
set_option autoImplicit false

def Value.bytes (v : Value) : List UInt8 := Text.encoded v.canonical

def Value.digest (v : Value) : String := Digest.hex v.bytes

def optionsKey (options : Entries) : String := (Value.map options).digest

/-- Keys and the numbers of the checkers built for them. -/
abbrev Cache := List (String × Nat)

namespace Cache

def find? (cache : Cache) (key : String) : Option Nat := List.lookup key cache

def contains (cache : Cache) (options : Value) : Bool := (cache.find? options.digest).isSome

def add (cache : Cache) (key : String) (checker : Nat) : Cache := cache ++ [(key, checker)]

theorem mem_of_find? {cache : Cache} {key : String} {n : Nat} (h : cache.find? key = some n) :
    (key, n) ∈ cache := by
  obtain ⟨before, after, hcache, -⟩ := List.lookup_eq_some_iff.mp h
  rw [hcache]
  exact List.mem_append_right before List.mem_cons_self

end Cache

end Marginalia
