import Marginalia.Span.Merge

/-!
# Laws of merging

Merged spans are separated: each ends before the next one starts, so no two of them touch.  They
cover the same indices as the spans they were made of.  Nothing here needs the spans to be short
or to lie inside a text.
-/

namespace Marginalia.Span
set_option autoImplicit false

/-- A span that a text can have: it starts at an index and does not run backwards. -/
def Proper (s : Span) : Prop := 0 ≤ s.start ∧ s.start ≤ s.stop

def covered (spans : List Span) (i : Int) : Bool := spans.any (·.contains i)

theorem covered_iff (spans : List Span) (i : Int) :
    covered spans i = true ↔ ∃ s ∈ spans, s.start ≤ i ∧ i < s.stop := by
  simp [covered]

@[simp] theorem covered_nil (i : Int) : covered [] i = false := rfl

@[simp] theorem covered_cons (s : Span) (spans : List Span) (i : Int) :
    covered (s :: spans) i = (s.contains i || covered spans i) := rfl

@[simp] theorem covered_append (xs ys : List Span) (i : Int) :
    covered (xs ++ ys) i = (covered xs i || covered ys i) := by
  simp [covered]

theorem covered_perm {xs ys : List Span} (h : xs.Perm ys) (i : Int) :
    covered xs i = covered ys i := by
  apply Bool.eq_iff_iff.mpr
  simp only [covered_iff, h.mem_iff]

theorem byStart_sorted (spans : List Span) :
    (byStart spans).Pairwise fun a b => a.start ≤ b.start := by
  have sorted := @Sorting.sort_pairwise Span (fun a b => decide (a.start ≤ b.start))
    (fun a b c hab hbc => by simp only [decide_eq_true_eq] at *; omega)
    (fun a b => by simp only [decide_eq_true_eq]; omega) spans
  exact sorted.imp fun hab => of_decide_eq_true hab

theorem sorted_joined {opened s : Span} {rest : List Span}
    (sorted : (opened :: s :: rest).Pairwise fun a b => a.start ≤ b.start) (stop : Int) :
    ((⟨opened.start, stop⟩ : Span) :: rest).Pairwise fun a b => a.start ≤ b.start := by
  obtain ⟨hopened, hrest⟩ := List.pairwise_cons.mp sorted
  refine List.pairwise_cons.mpr ⟨?_, hrest.of_cons⟩
  exact fun u hu => hopened u (List.mem_cons_of_mem s hu)

section Coalesce
variable {opened : Span} {rest : List Span}

/-- A joined span starts with one of the spans and reaches at least as far, and it stops where one of
them stops. -/
theorem bounds_of_mem_coalesce {t : Span} (ht : t ∈ coalesce opened rest) :
    (∃ a ∈ opened :: rest, t.start = a.start ∧ a.stop ≤ t.stop) ∧
      ∃ b ∈ opened :: rest, t.stop = b.stop := by
  induction rest generalizing opened with
  | nil =>
    rw [List.mem_singleton.mp ht]
    exact ⟨⟨opened, List.mem_cons_self, rfl, Int.le_refl _⟩, opened, List.mem_cons_self, rfl⟩
  | cons s rest ih =>
    simp only [coalesce] at ht
    split at ht
    · obtain ⟨⟨a, ha, hstart, hreach⟩, b, hb, hstop⟩ := ih ht
      constructor
      · rcases List.mem_cons.mp ha with rfl | ha
        · have hopened : opened.stop ≤ max opened.stop s.stop := Int.le_max_left _ _
          exact ⟨opened, List.mem_cons_self, hstart, Int.le_trans hopened hreach⟩
        · exact ⟨a, List.mem_cons_of_mem _ (List.mem_cons_of_mem _ ha), hstart, hreach⟩
      · rcases List.mem_cons.mp hb with rfl | hb
        · -- The open span stops where it did before, or where the one that joined it stops.
          rcases Int.le_total opened.stop s.stop with hle | hle
          · exact ⟨s, List.mem_cons_of_mem _ List.mem_cons_self, hstop.trans (Int.max_eq_right hle)⟩
          · exact ⟨opened, List.mem_cons_self, hstop.trans (Int.max_eq_left hle)⟩
        · exact ⟨b, List.mem_cons_of_mem _ (List.mem_cons_of_mem _ hb), hstop⟩
    · rcases List.mem_cons.mp ht with rfl | ht
      · exact ⟨⟨t, List.mem_cons_self, rfl, Int.le_refl _⟩, t, List.mem_cons_self, rfl⟩
      · obtain ⟨⟨a, ha, hfirst⟩, b, hb, hstop⟩ := ih ht
        exact ⟨⟨a, List.mem_cons_of_mem _ ha, hfirst⟩, b, List.mem_cons_of_mem _ hb, hstop⟩

theorem coalesce_separated (sorted : (opened :: rest).Pairwise fun a b => a.start ≤ b.start) :
    (coalesce opened rest).Pairwise fun a b => a.stop < b.start := by
  induction rest generalizing opened with
  | nil => exact List.pairwise_singleton _ _
  | cons s rest ih =>
    have hrest := sorted.of_cons
    simp only [coalesce]
    split
    · exact ih (sorted_joined sorted _)
    · next gap =>
      refine List.pairwise_cons.mpr ⟨?_, ih hrest⟩
      intro t ht
      obtain ⟨⟨u, hu, hstart, -⟩, -⟩ := bounds_of_mem_coalesce ht
      rcases List.mem_cons.mp hu with rfl | hu
      · omega
      · have hsu := (List.pairwise_cons.mp hrest).1 u hu
        omega

theorem covered_coalesce (sorted : (opened :: rest).Pairwise fun a b => a.start ≤ b.start)
    (i : Int) : covered (coalesce opened rest) i = covered (opened :: rest) i := by
  induction rest generalizing opened with
  | nil => rfl
  | cons s rest ih =>
    obtain ⟨hopened, hrest⟩ := List.pairwise_cons.mp sorted
    have hos := hopened s List.mem_cons_self
    simp only [coalesce]
    split
    · next reached =>
      rw [ih (sorted_joined sorted _)]
      simp only [covered_cons, ← Bool.or_assoc]
      congr 1
      apply Bool.eq_iff_iff.mpr
      simp only [contains_iff, Bool.or_eq_true]
      omega
    · rw [covered_cons, ih hrest, covered_cons opened]

theorem exists_mem_coalesce (sorted : (opened :: rest).Pairwise fun a b => a.start ≤ b.start)
    {s : Span} (hs : s ∈ opened :: rest) :
    ∃ t ∈ coalesce opened rest, t.start ≤ s.start ∧ s.stop ≤ t.stop := by
  induction rest generalizing opened s with
  | nil => exact ⟨s, hs, Int.le_refl _, Int.le_refl _⟩
  | cons next rest ih =>
    obtain ⟨hopened, hrest⟩ := List.pairwise_cons.mp sorted
    have hnext := hopened next List.mem_cons_self
    simp only [coalesce]
    split
    · have hjoined := sorted_joined sorted (max opened.stop next.stop)
      obtain ⟨t, ht, hstart, hstop⟩ := ih hjoined List.mem_cons_self
      simp only at hstart hstop
      rcases List.mem_cons.mp hs with rfl | hs
      · exact ⟨t, ht, hstart, by omega⟩
      · rcases List.mem_cons.mp hs with rfl | hs
        · exact ⟨t, ht, by omega, by omega⟩
        · exact ih hjoined (List.mem_cons_of_mem _ hs)
    · rcases List.mem_cons.mp hs with rfl | hs
      · exact ⟨s, List.mem_cons_self, Int.le_refl _, Int.le_refl _⟩
      · obtain ⟨t, ht, hin⟩ := ih hrest hs
        exact ⟨t, List.mem_cons_of_mem _ ht, hin⟩

end Coalesce

theorem merge_separated (spans : List Span) :
    (merge spans).Pairwise fun a b => a.stop < b.start := by
  have sorted := byStart_sorted spans
  unfold merge
  cases hs : byStart spans with
  | nil => exact .nil
  | cons s rest => exact coalesce_separated (hs ▸ sorted)

theorem exists_mem_merge {spans : List Span} {s : Span} (hs : s ∈ spans) :
    ∃ t ∈ merge spans, t.start ≤ s.start ∧ s.stop ≤ t.stop := by
  have sorted := byStart_sorted spans
  have hmem := (byStart_perm spans).mem_iff.mpr hs
  unfold merge
  cases hspans : byStart spans with
  | nil =>
    rw [hspans] at hmem
    exact absurd hmem List.not_mem_nil
  | cons first rest => exact exists_mem_coalesce (hspans ▸ sorted) (hspans ▸ hmem)

theorem covered_merge (spans : List Span) (i : Int) : covered (merge spans) i = covered spans i := by
  have sorted := byStart_sorted spans
  rw [← covered_perm (byStart_perm spans) i]
  unfold merge
  cases hs : byStart spans with
  | nil => rfl
  | cons s rest => exact covered_coalesce (hs ▸ sorted) i

theorem bounds_of_mem_merge {spans : List Span} {t : Span} (ht : t ∈ merge spans) :
    (∃ a ∈ spans, t.start = a.start ∧ a.stop ≤ t.stop) ∧ ∃ b ∈ spans, t.stop = b.stop := by
  simp only [← (byStart_perm spans).mem_iff]
  unfold merge at ht
  cases hs : byStart spans with
  | nil =>
    rw [hs] at ht
    exact absurd ht List.not_mem_nil
  | cons s rest =>
    rw [hs] at ht
    exact bounds_of_mem_coalesce ht

theorem proper_of_mem_merge {spans : List Span} (hproper : ∀ s ∈ spans, s.Proper) :
    ∀ t ∈ merge spans, t.Proper := by
  intro t ht
  obtain ⟨⟨a, ha, hstart, hreach⟩, -⟩ := bounds_of_mem_merge ht
  obtain ⟨hpos, hle⟩ := hproper a ha
  exact ⟨by omega, by omega⟩

theorem eq_or_apart_of_separated {spans : List Span}
    (h : spans.Pairwise fun a b => a.stop < b.start) {s t : Span} (hs : s ∈ spans) (ht : t ∈ spans) :
    s = t ∨ s.stop < t.start ∨ t.stop < s.start := by
  apply List.Pairwise.forall_of_forall_of_flip
    (R := fun a b => a = b ∨ a.stop < b.start ∨ b.stop < a.start) _ _ _ hs ht
  · exact fun a _ => Or.inl rfl
  · exact h.imp fun hab => Or.inr (Or.inl hab)
  · exact h.imp fun hab => Or.inr (Or.inr hab)

theorem encloses_stop_of_mem_merge {spans : List Span} (hproper : ∀ s ∈ spans, s.Proper)
    {s t : Span} (hs : s ∈ merge spans) (ht : t ∈ merge spans) : t.encloses s.stop = false := by
  have hle := (proper_of_mem_merge hproper s hs).2
  apply Bool.eq_false_iff.mpr
  intro hover
  obtain ⟨hstart, hstop⟩ := (encloses_iff t s.stop).mp hover
  rcases eq_or_apart_of_separated (merge_separated spans) hs ht with rfl | hbefore | hbehind <;> omega

theorem covered_mergeDescending (spans : List Span) (i : Int) :
    covered (mergeDescending spans) i = covered spans i := by
  rw [covered_perm (mergeDescending_perm spans) i, covered_merge]

theorem proper_of_mem_mergeDescending {spans : List Span} (hproper : ∀ s ∈ spans, s.Proper) :
    ∀ t ∈ mergeDescending spans, t.Proper :=
  fun t ht => proper_of_mem_merge hproper t ((mergeDescending_perm spans).mem_iff.mp ht)

theorem mergeDescending_separated {spans : List Span} (hproper : ∀ s ∈ spans, s.Proper) :
    (mergeDescending spans).Pairwise fun a b => b.stop < a.start := by
  have sorted := @Sorting.sort_pairwise Span (fun a b => decide (b.start ≤ a.start))
    (fun a b c hab hbc => by simp only [decide_eq_true_eq] at *; omega)
    (fun a b => by simp only [decide_eq_true_eq]; omega) (merge spans)
  have apart : (mergeDescending spans).Pairwise
      fun a b => a.stop < b.start ∨ b.stop < a.start := by
    apply ((mergeDescending_perm spans).pairwise_iff fun h => h.symm).mpr
    exact (merge_separated spans).imp Or.inl
  refine (sorted.and apart).imp_of_mem ?_
  intro a b ha hb ⟨hab, hgap⟩
  have hle := of_decide_eq_true hab
  have hpa := (proper_of_mem_mergeDescending hproper a ha).2
  omega

end Marginalia.Span
