import Marginalia.Proofs.Value.Canonical

/-!
# Values with the same canonical text

Two values without floating-point numbers, whose maps name no key twice, have the same canonical text
if and only if they are the same value up to the order of the keys at every level.
-/

namespace Marginalia.Value
set_option autoImplicit false

/-- Values built from null, booleans, integers, strings, lists and maps with distinct keys. -/
inductive Plain : Value → Prop
  | null : Plain null
  | bool (b : Bool) : Plain (bool b)
  | int (n : Int) : Plain (int n)
  | str (s : String) : Plain (str s)
  | list {items : List Value} : (∀ v ∈ items, Plain v) → Plain (list items)
  | map {entries : Entries} : (entries.map Prod.fst).Nodup → (∀ e ∈ entries, Plain e.2) →
      Plain (map entries)

mutual

def isPlain : Value → Bool
  | float _ => false
  | list items => itemsPlain items
  | map entries => decide (entries.map Prod.fst).Nodup && entriesPlain entries
  | _ => true

def itemsPlain : List Value → Bool
  | [] => true
  | v :: rest => isPlain v && itemsPlain rest

def entriesPlain : List (String × Value) → Bool
  | [] => true
  | (_, v) :: rest => isPlain v && entriesPlain rest

end

theorem itemsPlain_eq_all (items : List Value) : itemsPlain items = items.all isPlain := by
  induction items with
  | nil => rfl
  | cons v rest ih =>
    unfold itemsPlain
    rw [ih, List.all_cons]

theorem entriesPlain_eq_all (entries : Entries) :
    entriesPlain entries = entries.all fun e => e.2.isPlain := by
  induction entries with
  | nil => rfl
  | cons e rest ih =>
    unfold entriesPlain
    rw [ih, List.all_cons]

theorem Plain.isPlain {v : Value} (h : v.Plain) : v.isPlain = true := by
  induction h with
  | list _ ih =>
    unfold Value.isPlain
    rw [itemsPlain_eq_all]
    exact List.all_eq_true.mpr ih
  | map hkeys _ ih =>
    unfold Value.isPlain
    rw [entriesPlain_eq_all, decide_eq_true hkeys, Bool.true_and]
    exact List.all_eq_true.mpr ih
  | _ => rfl

mutual

theorem plain_of_isPlain : (v : Value) → v.isPlain = true → v.Plain
  | null, _ => .null
  | bool b, _ => .bool b
  | int n, _ => .int n
  | str s, _ => .str s
  | list items, h => .list (plain_of_itemsPlain items h)
  | map entries, h =>
    have hboth := Bool.and_eq_true_iff.mp h
    .map (of_decide_eq_true hboth.1) (plain_of_entriesPlain entries hboth.2)

theorem plain_of_itemsPlain : (items : List Value) → itemsPlain items = true →
    ∀ v ∈ items, v.Plain
  | [], _ => List.forall_mem_nil _
  | v :: rest, h =>
    have hboth := Bool.and_eq_true_iff.mp h
    List.forall_mem_cons.mpr ⟨plain_of_isPlain v hboth.1, plain_of_itemsPlain rest hboth.2⟩

theorem plain_of_entriesPlain : (entries : List (String × Value)) → entriesPlain entries = true →
    ∀ e ∈ entries, e.2.Plain
  | [], _ => List.forall_mem_nil _
  | (_, v) :: rest, h =>
    have hboth := Bool.and_eq_true_iff.mp h
    List.forall_mem_cons.mpr ⟨plain_of_isPlain v hboth.1, plain_of_entriesPlain rest hboth.2⟩

end

instance (v : Value) : Decidable v.Plain :=
  decidable_of_iff (v.isPlain = true) ⟨plain_of_isPlain v, Plain.isPlain⟩

/-- Equality up to the order of the keys at every level.  The entries of two maps can be put in an
order in which they have the same keys and, one by one, the same values. -/
inductive Same : Value → Value → Prop
  | null : Same null null
  | bool (b : Bool) : Same (bool b) (bool b)
  | int (n : Int) : Same (int n) (int n)
  | str (s : String) : Same (str s) (str s)
  | list {xs ys : List Value} : List.Forall₂ Same xs ys → Same (list xs) (list ys)
  | map {xs xs' ys ys' : Entries} : xs.Perm xs' → ys.Perm ys' →
      xs'.map Prod.fst = ys'.map Prod.fst →
      List.Forall₂ Same (xs'.map Prod.snd) (ys'.map Prod.snd) → Same (map xs) (map ys)

/-! ## The kind of a value -/

inductive Kind where
  | null
  | bool
  | number
  | str
  | list
  | map

def kind : Value → Kind
  | null => .null
  | bool _ => .bool
  | int _ => .number
  | float _ => .number
  | str _ => .str
  | list _ => .list
  | map _ => .map

end Marginalia.Value
