import Mathlib.Logic.ExistsUnique
import Marginalia.Proofs.Span.Merge

/-!
# Merging has one result

Among the lists of separated spans that hold each of the given spans, the merged list is the finest
one: whatever separated list holds the given spans holds the merged ones as well.  There is only one
such list, so the order in which the spans are given does not count and merging twice is merging
once.  This is shown for spans that do not run backwards.  A span that does has no place among the
others: it is joined to one with the same start if it comes second, and left alone if it comes first.
-/

namespace Marginalia.Span
set_option autoImplicit false

/-- The span does not run backwards.  It may be empty. -/
def Forward (s : Span) : Prop := s.start ≤ s.stop

/-- Both bounds of the span lie in the other one or at its ends. -/
def Within (s t : Span) : Prop := t.start ≤ s.start ∧ s.stop ≤ t.stop

/-- The spans stand in their order, each ending before the next one starts. -/
def Separated (spans : List Span) : Prop := spans.Pairwise fun a b => a.stop < b.start

theorem Within.refl (s : Span) : s.Within s := ⟨Int.le_refl _, Int.le_refl _⟩

theorem Within.trans {s t u : Span} (hst : s.Within t) (htu : t.Within u) : s.Within u :=
  ⟨Int.le_trans htu.1 hst.1, Int.le_trans hst.2 htu.2⟩

theorem Within.antisymm {s t : Span} (hst : s.Within t) (hts : t.Within s) : s = t := by
  obtain ⟨start, stop⟩ := s
  obtain ⟨start', stop'⟩ := t
  have hstart : start = start' := Int.le_antisymm hts.1 hst.1
  have hstop : stop = stop' := Int.le_antisymm hst.2 hts.2
  rw [hstart, hstop]

section Separated
variable {xs ys outer : List Span} {s t u : Span}

theorem Separated.eq_of_meet (h : Separated xs) (hs : s ∈ xs) (ht : t ∈ xs)
    (hst : s.start ≤ t.stop) (hts : t.start ≤ s.stop) : s = t := by
  rcases eq_or_apart_of_separated h hs ht with heq | hbefore | hbehind
  · exact heq
  · omega
  · omega

theorem Separated.eq_of_within (h : Separated xs) (hs : s ∈ xs) (ht : t ∈ xs) (hu : u.Forward)
    (hus : u.Within s) (hut : u.Within t) : s = t := by
  obtain ⟨hstart, hstop⟩ := hus
  obtain ⟨hstart', hstop'⟩ := hut
  unfold Forward at hu
  exact h.eq_of_meet hs ht (by omega) (by omega)

theorem Separated.nodup (h : Separated xs) (hforward : ∀ s ∈ xs, s.Forward) : xs.Nodup := by
  refine h.imp_of_mem ?_
  intro a b ha _ hab heq
  have hle : a.start ≤ a.stop := hforward a ha
  rw [← heq] at hab
  omega

theorem Separated.mem_of_within_each (hx : Separated xs) (hforward : ∀ s ∈ xs, s.Forward)
    (hxy : ∀ s ∈ xs, ∃ t ∈ ys, s.Within t) (hyx : ∀ t ∈ ys, ∃ s ∈ xs, t.Within s) :
    ∀ s ∈ xs, s ∈ ys := by
  intro s hs
  obtain ⟨t, ht, hst⟩ := hxy s hs
  obtain ⟨s', hs', hts⟩ := hyx t ht
  -- The way there and back leads from the span to itself, so it has not left it.
  have hself : s = s' := hx.eq_of_within hs hs' (hforward s hs) (.refl s) (hst.trans hts)
  have heq : s = t := hst.antisymm (hself ▸ hts)
  rwa [heq]

/-- Two separated lists that hold each other are the same list. -/
theorem Separated.eq_of_within_each (hx : Separated xs) (hy : Separated ys)
    (hforward : ∀ s ∈ xs, s.Forward) (hforward' : ∀ s ∈ ys, s.Forward)
    (hxy : ∀ s ∈ xs, ∃ t ∈ ys, s.Within t) (hyx : ∀ t ∈ ys, ∃ s ∈ xs, t.Within s) : xs = ys := by
  have hperm : xs.Perm ys := by
    apply (List.perm_ext_iff_of_nodup (hx.nodup hforward) (hy.nodup hforward')).mpr
    intro s
    exact ⟨hx.mem_of_within_each hforward hxy hyx s, hy.mem_of_within_each hforward' hyx hxy s⟩
  refine hperm.eq_of_pairwise ?_ hx hy
  intro a b ha hb hab hba
  have hle : a.start ≤ a.stop := hforward a ha
  have hle' : b.start ≤ b.stop := hforward' b hb
  omega

end Separated

/-! ## The finest separated list -/

section Finest
variable {spans outer : List Span}

theorem within_of_mem_coalesce (houter : Separated outer) {opened : Span} {rest : List Span}
    (sorted : (opened :: rest).Pairwise fun a b => a.start ≤ b.start)
    (hforward : ∀ s ∈ opened :: rest, s.Forward)
    (hwithin : ∀ s ∈ opened :: rest, ∃ u ∈ outer, s.Within u) :
    ∀ t ∈ coalesce opened rest, ∃ u ∈ outer, t.Within u := by
  induction rest generalizing opened with
  | nil => exact hwithin
  | cons s rest ih =>
    obtain ⟨hopened, hrest⟩ := List.pairwise_cons.mp sorted
    have hforward' : ∀ t ∈ s :: rest, t.Forward := fun t ht => hforward t (List.mem_cons_of_mem _ ht)
    have hwithin' : ∀ t ∈ s :: rest, ∃ u ∈ outer, t.Within u :=
      fun t ht => hwithin t (List.mem_cons_of_mem _ ht)
    simp only [coalesce]
    split
    · next reached =>
      obtain ⟨u, hu, hou⟩ := hwithin opened List.mem_cons_self
      obtain ⟨v, hv, hsv⟩ := hwithin' s List.mem_cons_self
      have hos : opened.start ≤ s.start := hopened s List.mem_cons_self
      have hs : s.start ≤ s.stop := hforward' s List.mem_cons_self
      have ho : opened.start ≤ opened.stop := hforward opened List.mem_cons_self
      -- The two spans reach each other, and so do the spans that hold them.
      have huv : u = v := by
        obtain ⟨hstart, hstop⟩ := hou
        obtain ⟨hstart', hstop'⟩ := hsv
        exact houter.eq_of_meet hu hv (by omega) (by omega)
      subst huv
      apply ih (sorted_joined sorted _)
      · refine List.forall_mem_cons.mpr ⟨?_, fun t ht => hforward' t (List.mem_cons_of_mem s ht)⟩
        exact Int.le_trans ho (Int.le_max_left _ _)
      · refine List.forall_mem_cons.mpr ⟨⟨u, hu, hou.1, ?_⟩, fun t ht => ?_⟩
        · exact Int.max_le.mpr ⟨hou.2, hsv.2⟩
        · exact hwithin' t (List.mem_cons_of_mem s ht)
    · exact List.forall_mem_cons.mpr
        ⟨hwithin opened List.mem_cons_self, ih hrest hforward' hwithin'⟩

variable (hforward : ∀ s ∈ spans, s.Forward)
include hforward

theorem forward_of_mem_merge : ∀ t ∈ merge spans, t.Forward := by
  intro t ht
  obtain ⟨⟨a, ha, hstart, hreach⟩, -⟩ := bounds_of_mem_merge ht
  have hle : a.start ≤ a.stop := hforward a ha
  show t.start ≤ t.stop
  omega

theorem within_of_mem_merge (houter : Separated outer)
    (hwithin : ∀ s ∈ spans, ∃ u ∈ outer, s.Within u) : ∀ t ∈ merge spans, ∃ u ∈ outer, t.Within u := by
  have sorted := byStart_sorted spans
  simp only [← (byStart_perm spans).mem_iff] at hforward hwithin
  unfold merge
  cases hs : byStart spans with
  | nil => exact fun t ht => absurd ht List.not_mem_nil
  | cons s rest =>
    rw [hs] at sorted hforward hwithin
    exact within_of_mem_coalesce houter sorted hforward hwithin

theorem merge_eq_of_within (houter : Separated outer) (hforward' : ∀ u ∈ outer, u.Forward)
    (hwithin : ∀ s ∈ spans, ∃ u ∈ outer, s.Within u)
    (hback : ∀ u ∈ outer, ∃ t ∈ merge spans, u.Within t) : merge spans = outer :=
  Separated.eq_of_within_each (merge_separated spans) houter (forward_of_mem_merge hforward) hforward'
    (within_of_mem_merge hforward houter hwithin) hback

theorem merge_eq_of_perm {other : List Span} (hperm : other.Perm spans) :
    merge other = merge spans := by
  have hforward' : ∀ s ∈ other, s.Forward := fun s hs => hforward s (hperm.mem_iff.mp hs)
  apply merge_eq_of_within hforward' (merge_separated spans) (forward_of_mem_merge hforward)
  · exact fun s hs => exists_mem_merge (hperm.mem_iff.mp hs)
  · apply within_of_mem_merge hforward (merge_separated other)
    exact fun s hs => exists_mem_merge (hperm.mem_iff.mpr hs)

-- The order does count for a span that runs backwards.
example : merge [⟨5, 3⟩, ⟨5, 9⟩] = [⟨5, 3⟩, ⟨5, 9⟩] ∧ merge [⟨5, 9⟩, ⟨5, 3⟩] = [⟨5, 9⟩] := by decide

theorem merge_merge : merge (merge spans) = merge spans := by
  have hmerged := forward_of_mem_merge hforward
  apply merge_eq_of_within hmerged (merge_separated spans) hmerged
  · exact fun t ht => ⟨t, ht, .refl t⟩
  · exact fun t ht => exists_mem_merge ht

theorem existsUnique_within_merge {s : Span} (hs : s ∈ spans) :
    ∃! t, t ∈ merge spans ∧ s.Within t := by
  obtain ⟨t, ht, hst⟩ := exists_mem_merge hs
  refine ⟨t, ⟨ht, hst⟩, ?_⟩
  rintro u ⟨hu, hsu⟩
  exact Separated.eq_of_within (merge_separated spans) hu ht (hforward s hs) hsu hst

end Finest

/-- What merging makes of spans that do not run backwards.  The merged spans are separated.  Each of the
given spans lies in one of them and in no other, and an index is covered if and only if it was.  They
start where a given span starts and stop where a given span stops.  The order of the given spans does
not count, and merged spans stay as they are. -/
theorem merge_canonical (spans : List Span) (hforward : ∀ s ∈ spans, s.Forward) :
    Separated (merge spans) ∧
      (∀ s ∈ spans, ∃! t, t ∈ merge spans ∧ s.Within t) ∧
      (∀ i : Int, (∃ t ∈ merge spans, t.contains i = true) ↔ ∃ s ∈ spans, s.contains i = true) ∧
      (∀ t ∈ merge spans, (∃ a ∈ spans, t.start = a.start) ∧ ∃ b ∈ spans, t.stop = b.stop) ∧
      (∀ other, other.Perm spans → merge other = merge spans) ∧
      merge (merge spans) = merge spans := by
  refine ⟨merge_separated spans, fun s hs => existsUnique_within_merge hforward hs, ?_, ?_,
    fun other => merge_eq_of_perm hforward, merge_merge hforward⟩
  · intro i
    have hcovered : covered (merge spans) i = true ↔ covered spans i = true := by
      rw [covered_merge]
    simpa only [covered_iff, contains_iff] using hcovered
  · intro t ht
    obtain ⟨⟨a, ha, hstart, -⟩, hstop⟩ := bounds_of_mem_merge ht
    exact ⟨⟨a, ha, hstart⟩, hstop⟩

/-- Spans that overlap, touch and stand alone, empty ones among them, and one before the text. -/
theorem merge_canonical_example :
    let spans : List Span := [⟨5, 8⟩, ⟨3, 3⟩, ⟨1, 2⟩, ⟨8, 9⟩, ⟨0, 1⟩, ⟨-4, -4⟩, ⟨6, 7⟩]
    (∀ s ∈ spans, s.Forward) ∧ merge spans = [⟨-4, -4⟩, ⟨0, 2⟩, ⟨3, 3⟩, ⟨5, 9⟩] ∧
      Separated (merge spans) ∧ (∃! t, t ∈ merge spans ∧ Within ⟨3, 3⟩ t) ∧
      merge spans.reverse = merge spans ∧ merge (merge spans) = merge spans := by
  intro spans
  have hforward : ∀ s ∈ spans, s.Forward := by
    unfold Forward
    decide
  obtain ⟨hseparated, hwithin, -, -, hperm, htwice⟩ := merge_canonical spans hforward
  exact ⟨hforward, by decide, hseparated, hwithin ⟨3, 3⟩ (by decide),
    hperm spans.reverse (List.reverse_perm spans), htwice⟩

end Marginalia.Span
