/-!
# Sorting

Insertion sort by a comparison.  Items that compare as equal keep their order.  The recursion is
structural, so that a sorted list can be computed inside a proof.
-/

namespace Marginalia.Sorting
set_option autoImplicit false

variable {α : Type}

/-- Put an item before the first one that it may stand before. -/
def insert (le : α → α → Bool) (a : α) : List α → List α
  | [] => [a]
  | b :: rest => if le a b then a :: b :: rest else b :: insert le a rest

def sort (le : α → α → Bool) : List α → List α
  | [] => []
  | a :: rest => insert le a (sort le rest)

@[simp] theorem sort_nil (le : α → α → Bool) : sort le [] = [] := rfl

theorem insert_perm (le : α → α → Bool) (a : α) (xs : List α) : (insert le a xs).Perm (a :: xs) := by
  induction xs with
  | nil => exact .refl _
  | cons b rest ih =>
    simp only [insert]
    split
    · exact .refl _
    · exact (ih.cons b).trans (.swap a b rest)

theorem sort_perm (le : α → α → Bool) (xs : List α) : (sort le xs).Perm xs := by
  induction xs with
  | nil => exact .refl _
  | cons a rest ih => exact (insert_perm le a (sort le rest)).trans (ih.cons a)

@[simp] theorem mem_sort_iff (le : α → α → Bool) (a : α) (xs : List α) :
    a ∈ sort le xs ↔ a ∈ xs :=
  (sort_perm le xs).mem_iff

@[simp] theorem length_sort (le : α → α → Bool) (xs : List α) : (sort le xs).length = xs.length :=
  (sort_perm le xs).length_eq

theorem insert_pairwise {le : α → α → Bool}
    (trans : ∀ a b c, le a b = true → le b c = true → le a c = true)
    (total : ∀ a b, le a b = true ∨ le b a = true) (a : α) {xs : List α}
    (h : xs.Pairwise fun b c => le b c = true) :
    (insert le a xs).Pairwise fun b c => le b c = true := by
  induction xs with
  | nil => exact List.pairwise_singleton _ a
  | cons b rest ih =>
    obtain ⟨hb, hrest⟩ := List.pairwise_cons.mp h
    simp only [insert]
    split
    · next hab =>
      refine List.pairwise_cons.mpr ⟨?_, h⟩
      intro c hc
      rcases List.mem_cons.mp hc with rfl | hc
      · exact hab
      · exact trans a b c hab (hb c hc)
    · next hab =>
      refine List.pairwise_cons.mpr ⟨?_, ih hrest⟩
      intro c hc
      rcases List.mem_cons.mp ((insert_perm le a rest).mem_iff.mp hc) with rfl | hc
      · exact (total c b).resolve_left hab
      · exact hb c hc

theorem sort_pairwise {le : α → α → Bool}
    (trans : ∀ a b c, le a b = true → le b c = true → le a c = true)
    (total : ∀ a b, le a b = true ∨ le b a = true) (xs : List α) :
    (sort le xs).Pairwise fun a b => le a b = true := by
  induction xs with
  | nil => exact .nil
  | cons a rest ih => exact insert_pairwise trans total a ih

theorem filter_insert {le : α → α → Bool} {p : α → Bool}
    (h : ∀ a b, p a = true → p b = true → le a b = true) (a : α) (xs : List α) :
    (insert le a xs).filter p = (a :: xs).filter p := by
  induction xs with
  | nil => rfl
  | cons b rest ih =>
    simp only [insert]
    split
    · rfl
    · next hab =>
      -- The item goes past `b`, so not both of them are picked.
      rw [List.filter_cons, ih, List.filter_cons, List.filter_cons, List.filter_cons]
      by_cases ha : p a = true
      · have hb : ¬ p b = true := fun hb => hab (h a b ha hb)
        simp only [ha, hb, if_true]
        rfl
      · simp only [ha]
        rfl

/-- Items that may stand before one another keep their order. -/
theorem filter_sort {le : α → α → Bool} {p : α → Bool}
    (h : ∀ a b, p a = true → p b = true → le a b = true) (xs : List α) :
    (sort le xs).filter p = xs.filter p := by
  induction xs with
  | nil => rfl
  | cons a rest ih =>
    simp only [sort]
    rw [filter_insert h, List.filter_cons, List.filter_cons, ih]

theorem insert_of_le {le : α → α → Bool} {a : α} {xs : List α} (h : ∀ b ∈ xs, le a b = true) :
    insert le a xs = a :: xs := by
  cases xs with
  | nil => rfl
  | cons b rest => simp only [insert, h b List.mem_cons_self, if_true]

theorem filter_insert_of_not {le : α → α → Bool} {p : α → Bool} {a : α} (ha : ¬ p a = true)
    (xs : List α) : (insert le a xs).filter p = xs.filter p := by
  induction xs with
  | nil => exact List.filter_cons_of_neg ha
  | cons b rest ih =>
    simp only [insert]
    split
    · exact List.filter_cons_of_neg ha
    · rw [List.filter_cons, ih, List.filter_cons]

theorem filter_insert_of_pos {le : α → α → Bool} {p : α → Bool}
    (trans : ∀ a b c, le a b = true → le b c = true → le a c = true) {a : α} (ha : p a = true)
    {xs : List α} (h : xs.Pairwise fun b c => le b c = true) :
    (insert le a xs).filter p = insert le a (xs.filter p) := by
  induction xs with
  | nil => exact List.filter_cons_of_pos ha
  | cons b rest ih =>
    obtain ⟨hb, hrest⟩ := List.pairwise_cons.mp h
    simp only [insert]
    split
    · next hab =>
      have hall : ∀ c ∈ (b :: rest).filter p, le a c = true := by
        intro c hc
        rcases List.mem_cons.mp (List.mem_filter.mp hc).1 with rfl | hc
        · exact hab
        · exact trans a b c hab (hb c hc)
      rw [insert_of_le hall, List.filter_cons_of_pos ha]
    · next hab =>
      rw [List.filter_cons, ih hrest, List.filter_cons]
      split
      · rw [insert, if_neg hab]
      · rfl

/-- Items can be left out before or after sorting. -/
theorem sort_filter {le : α → α → Bool}
    (trans : ∀ a b c, le a b = true → le b c = true → le a c = true)
    (total : ∀ a b, le a b = true ∨ le b a = true) (p : α → Bool) (xs : List α) :
    sort le (xs.filter p) = (sort le xs).filter p := by
  induction xs with
  | nil => rfl
  | cons a rest ih =>
    simp only [sort]
    by_cases ha : p a = true
    · rw [List.filter_cons_of_pos ha, sort, ih,
        filter_insert_of_pos trans ha (sort_pairwise trans total rest)]
    · rw [List.filter_cons_of_neg ha, ih, filter_insert_of_not ha]

section Map
variable {β : Type} {le : α → α → Bool} {le' : β → β → Bool} {f : α → β}

theorem insert_map (h : ∀ a b, le' (f a) (f b) = le a b) (a : α) (xs : List α) :
    insert le' (f a) (xs.map f) = (insert le a xs).map f := by
  induction xs with
  | nil => rfl
  | cons b rest ih =>
    simp only [List.map_cons, insert, h]
    split
    · rfl
    · rw [ih, List.map_cons]

theorem sort_map (h : ∀ a b, le' (f a) (f b) = le a b) (xs : List α) :
    sort le' (xs.map f) = (sort le xs).map f := by
  induction xs with
  | nil => rfl
  | cons a rest ih => rw [List.map_cons, sort, ih, insert_map h, sort]

end Map

end Marginalia.Sorting
