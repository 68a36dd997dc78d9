import Marginalia.Section
import Marginalia.Proofs.Line

/-!
# Laws of sections

Every section is a stretch of its sample that is not empty.  When whole lines are erased and what is
left is cut into sections again, a section comes out of each stretch between file lines that stay,
unless nothing of the stretch is left.
-/

namespace Marginalia.Section
set_option autoImplicit false

/-- The section holds what the sample holds at the section's place, and it holds something. -/
structure PartOf (code : List Char) (s : Section) : Prop where
  content : (code.drop s.offset).take s.content.length = s.content
  stop : s.offset + s.content.length ≤ code.length
  ne_nil : s.content ≠ []

theorem contains_iff (s : Section) (i : Int) :
    s.contains i = true ↔ s.offset ≤ i ∧ i < s.offset + s.content.length := by
  unfold contains stop
  rw [Bool.and_eq_true]
  simp

theorem nonneg_of_contains {s : Section} {i : Int} (h : s.contains i = true) : 0 ≤ i := by
  have := (s.contains_iff i).mp h
  omega

theorem partOf_make {root : String} {code : List Char} {index stop : Nat} {name : String}
    (h : (code.take stop).drop index ≠ []) :
    PartOf code (make root index name ((code.take stop).drop index)) := by
  have hpos := List.length_pos_iff.mpr h
  simp only [List.length_drop, List.length_take] at hpos
  refine ⟨?_, ?_, h⟩
  · simp only [make, List.drop_take]
    rw [List.length_take, ← List.take_eq_take_min]
  · simp only [make, List.length_drop, List.length_take]
    omega

theorem partOf_of_mem_cutAt {root : String} {code : List Char} {index : Nat} {current : String}
    {named : List (Line × String)} {s : Section} (h : s ∈ cutAt root code index current named) :
    PartOf code s := by
  induction named generalizing index current with
  | nil =>
    simp only [cutAt] at h
    split at h
    · next hlt =>
      have hpart : (code.take code.length).drop index ≠ [] := by
        rw [List.take_length]
        exact List.length_pos_iff.mp (by rw [List.length_drop]; omega)
      rw [List.mem_singleton.mp h]
      have hmake := @partOf_make root code index code.length current hpart
      rwa [List.take_length] at hmake
    · exact absurd h List.not_mem_nil
  | cons x rest ih =>
    obtain ⟨l, name⟩ := x
    simp only [cutAt] at h
    split at h
    · exact ih h
    · next hne =>
      rcases List.mem_cons.mp h with rfl | h
      · exact partOf_make fun he => hne (by rw [he]; rfl)
      · exact ih h

theorem partOf_of_mem_split {code : List Char} {defaultName root : String} {s : Section}
    (h : s ∈ split code defaultName root) : PartOf code s :=
  partOf_of_mem_cutAt h

theorem eq_make_of_mem_cutAt {root : String} {code : List Char} {index : Nat} {current : String}
    {named : List (Line × String)} {s : Section} (h : s ∈ cutAt root code index current named) :
    s = make root s.offset s.filename s.content := by
  induction named generalizing index current with
  | nil =>
    simp only [cutAt] at h
    split at h
    · rw [List.mem_singleton.mp h]
      rfl
    · exact absurd h List.not_mem_nil
  | cons x rest ih =>
    obtain ⟨l, name⟩ := x
    simp only [cutAt] at h
    split at h
    · exact ih h
    · rcases List.mem_cons.mp h with rfl | h
      · rfl
      · exact ih h

theorem cutAt_pairwise {root : String} {code : List Char} {index : Nat} {current : String}
    {named : List (Line × String)} (hindex : ∀ x ∈ named, index ≤ x.1.start)
    (hnamed : named.Pairwise fun x y => x.1.start ≤ y.1.start) :
    (∀ s ∈ cutAt root code index current named, index ≤ s.offset) ∧
      (cutAt root code index current named).Pairwise fun s t => s.stop ≤ t.offset := by
  induction named generalizing index current with
  | nil =>
    simp only [cutAt]
    split
    · refine ⟨fun s hs => ?_, List.pairwise_singleton _ _⟩
      rw [List.mem_singleton.mp hs]
      exact Nat.le_refl index
    · exact ⟨fun s hs => absurd hs List.not_mem_nil, .nil⟩
  | cons x rest ih =>
    obtain ⟨l, name⟩ := x
    obtain ⟨hfirst, hrest⟩ := List.pairwise_cons.mp hnamed
    have hl : index ≤ l.start := hindex (l, name) List.mem_cons_self
    obtain ⟨hbehind, hpairs⟩ := @ih l.start name hfirst hrest
    have hlater : ∀ s ∈ cutAt root code l.start name rest, index ≤ s.offset :=
      fun s hs => Nat.le_trans hl (hbehind s hs)
    simp only [cutAt]
    split
    · exact ⟨hlater, hpairs⟩
    · refine ⟨?_, List.pairwise_cons.mpr ⟨?_, hpairs⟩⟩
      · intro s hs
        rcases List.mem_cons.mp hs with rfl | hs
        · exact Nat.le_refl _
        · exact hlater s hs
      · intro s hs
        have hoffset := hbehind s hs
        simp only [make, stop, List.length_drop, List.length_take]
        omega

theorem fileLines_pairwise (code : List Char) :
    (fileLines code).Pairwise fun x y => x.1.start < y.1.start := by
  unfold fileLines Line.select
  refine List.Pairwise.filterMap _ ?_ (Line.all_pairwise code)
  intro k l hkl x hx y hy
  obtain ⟨_, -, rfl⟩ := Option.map_eq_some_iff.mp hx
  obtain ⟨_, -, rfl⟩ := Option.map_eq_some_iff.mp hy
  dsimp only
  omega

theorem split_pairwise (code : List Char) (defaultName root : String) :
    (split code defaultName root).Pairwise fun s t => s.stop ≤ t.offset :=
  (cutAt_pairwise (fun _ _ => Nat.zero_le _) ((fileLines_pairwise code).imp Nat.le_of_lt)).2

/-- The last of the sections under a path. -/
def last? (path : String) (sections : List Section) : Option Section :=
  sections.reverse.find? (·.path == path)

theorem mem_of_last? {path : String} {sections : List Section} {s : Section}
    (h : last? path sections = some s) : s ∈ sections ∧ s.path = path := by
  unfold last? at h
  have hpath := List.find?_some h
  exact ⟨List.mem_reverse.mp (List.mem_of_find?_eq_some h), beq_iff_eq.mp hpath⟩

theorem exists_last? {path : String} {sections : List Section} {s : Section} (hs : s ∈ sections)
    (hpath : s.path = path) : ∃ t, last? path sections = some t := by
  cases h : last? path sections with
  | some t => exact ⟨t, rfl⟩
  | none =>
    have hno := List.find?_eq_none.mp h s (List.mem_reverse.mpr hs)
    exact absurd (beq_iff_eq.mpr hpath) hno

theorem last?_cons (path : String) (s : Section) (rest : List Section) :
    last? path (s :: rest) = (last? path rest).or (if s.path = path then some s else none) := by
  simp only [last?, List.reverse_cons, List.find?_append, List.find?_singleton, beq_iff_eq]

theorem offset_le_last? {path : String} {sections : List Section} {s t : Section}
    (hpairs : sections.Pairwise fun s t => s.stop ≤ t.offset) (hs : s ∈ sections)
    (hpath : s.path = path) (h : last? path sections = some t) : s.offset ≤ t.offset := by
  induction sections with
  | nil => exact absurd hs List.not_mem_nil
  | cons first rest ih =>
    obtain ⟨hfirst, hrest⟩ := List.pairwise_cons.mp hpairs
    rw [last?_cons] at h
    rcases List.mem_cons.mp hs with rfl | hs
    · cases hlast : last? path rest with
      | none =>
        rw [hlast, if_pos hpath] at h
        obtain rfl : s = t := Option.some.inj h
        exact Nat.le_refl _
      | some u =>
        rw [hlast] at h
        obtain rfl : u = t := Option.some.inj h
        have hstop := hfirst u (mem_of_last? hlast).1
        unfold stop at hstop
        omega
    · obtain ⟨u, hu⟩ := exists_last? hs hpath
      rw [hu] at h
      obtain rfl : u = t := Option.some.inj h
      exact ih hrest hs hu

theorem last?_filter {path : String} {q : Section → Bool} {sections : List Section}
    (h : ∀ s ∈ sections, s.path = path → q s = true) :
    last? path (sections.filter q) = last? path sections := by
  induction sections with
  | nil => rfl
  | cons s rest ih =>
    have hrest := ih fun t ht => h t (List.mem_cons_of_mem s ht)
    rw [last?_cons, ← hrest]
    by_cases hq : q s = true
    · rw [List.filter_cons_of_pos hq, last?_cons]
    · have hpath : ¬ s.path = path := fun he => hq (h s List.mem_cons_self he)
      rw [List.filter_cons_of_neg hq, if_neg hpath, Option.or_none]

theorem last?_eq_none {path : String} {sections : List Section}
    (h : ∀ s ∈ sections, s.path ≠ path) : last? path sections = none := by
  apply List.find?_eq_none.mpr
  intro s hs he
  exact h s (List.mem_reverse.mp hs) (beq_iff_eq.mp he)

def piece (root : String) (index : Nat) (name : String) (content : List Char) : List Section :=
  if content.isEmpty then [] else [make root index name content]

theorem cutAt_nil (root : String) (code : List Char) (index : Nat) (current : String) :
    cutAt root code index current [] = piece root index current (code.drop index) := by
  simp only [cutAt, piece]
  by_cases h : index < code.length
  · have hne : (code.drop index).isEmpty = false := by
      rw [List.isEmpty_eq_false_iff, ← List.length_pos_iff, List.length_drop]
      omega
    rw [if_pos h, hne]
    rfl
  · rw [if_neg h, List.drop_eq_nil_of_le (by omega)]
    rfl

theorem cutAt_cons (root : String) (code : List Char) (index : Nat) (current : String) (l : Line)
    (name : String) (rest : List (Line × String)) :
    cutAt root code index current ((l, name) :: rest) =
      piece root index current ((code.take l.start).drop index) ++
        cutAt root code l.start name rest := by
  simp only [cutAt, piece]
  split <;> rfl

section Keep
variable (p : Nat → Bool)

def kept (s : Section) : List Char := Text.keepFrom p s.offset s.content

def keep? (s : Section) : Option Section :=
  if (s.kept p).isEmpty then none
  else some { s with offset := Text.countBelow p s.offset, content := s.kept p }

theorem keep?_eq_some {p : Nat → Bool} {s t : Section} (h : keep? p s = some t) :
    t.path = s.path ∧ t.content = s.kept p ∧ s.kept p ≠ [] := by
  unfold keep? at h
  split at h
  · cases h
  · next hne =>
    cases h
    exact ⟨rfl, rfl, fun he => hne (List.isEmpty_iff.mpr he)⟩

theorem exists_keep? {p : Nat → Bool} {s : Section} (h : s.kept p ≠ []) :
    ∃ t, keep? p s = some t := by
  unfold keep?
  rw [if_neg fun he => h (List.isEmpty_iff.mp he)]
  exact ⟨_, rfl⟩

theorem filterMap_keep?_piece (root : String) (index : Nat) (name : String) (content : List Char) :
    (piece root index name content).filterMap (keep? p) =
      piece root (Text.countBelow p index) name (Text.keepFrom p index content) := by
  cases content with
  | nil => rfl
  | cons c rest =>
    simp only [piece, List.isEmpty_cons, Bool.false_eq_true, if_false, List.filterMap_cons,
      List.filterMap_nil, keep?, kept, make]
    split <;> simp_all

variable {p}

theorem cutAt_keepFrom {root : String} {code : List Char} {index : Nat} {current : String}
    {named : List (Line × String)} (hnamed : ∀ x ∈ named, x.1.start ≤ code.length) :
    cutAt root (Text.keepFrom p 0 code) (Text.countBelow p index) current
        (named.map fun x => (x.1.moved p, x.2)) =
      (cutAt root code index current named).filterMap (keep? p) := by
  have hlen : (Text.keepFrom p 0 code).length = Text.countBelow p code.length := by
    have htake := Text.length_keepFrom_take (p := p) (Nat.le_refl code.length)
    rwa [List.take_length] at htake
  induction named generalizing index current with
  | nil =>
    have hslice := Text.slice_keepFrom (p := p) (a := index) (Nat.le_refl code.length)
    rw [← hlen, List.take_length, List.take_length] at hslice
    rw [List.map_nil, cutAt_nil, cutAt_nil, filterMap_keep?_piece, hslice]
  | cons x rest ih =>
    obtain ⟨l, name⟩ := x
    have hl : l.start ≤ code.length := hnamed (l, name) List.mem_cons_self
    rw [List.map_cons, cutAt_cons, cutAt_cons, List.filterMap_append, filterMap_keep?_piece,
      ← Text.slice_keepFrom hl]
    congr 1
    exact ih fun y hy => hnamed y (List.mem_cons_of_mem (l, name) hy)

end Keep

/-- The sections of a sample that is cut at the given file lines only. -/
def splitAt (named : List (Line × String)) (code : List Char) (defaultName root : String) :
    List Section :=
  cutAt root code 0 (if named.any (·.2 == defaultName) then reservedName else defaultName) named

theorem split_eq_splitAt (code : List Char) (defaultName root : String) :
    split code defaultName root = splitAt (fileLines code) code defaultName root := rfl

theorem split_keepFrom {code : List Char} {p : Nat → Bool} {kept : Line → Bool}
    (h : Line.Whole code p kept) (defaultName root : String) :
    split (Text.keepFrom p 0 code) defaultName root =
      (splitAt ((fileLines code).filter fun x => kept x.1) code defaultName root).filterMap
        (keep? p) := by
  have hlines : fileLines (Text.keepFrom p 0 code) =
      ((fileLines code).filter fun x => kept x.1).map fun x => (x.1.moved p, x.2) :=
    h.select_keepFrom rfl
  have hstart : ∀ x ∈ (fileLines code).filter fun x => kept x.1, x.1.start ≤ code.length := by
    intro x hx
    have hall := (Line.mem_select_iff.mp (List.mem_filter.mp hx).1).1
    have hstop := Line.stop_le_of_mem_all hall
    omega
  rw [split_eq_splitAt, hlines]
  unfold splitAt
  rw [List.any_map]
  have hzero : Text.countBelow p 0 = 0 := rfl
  rw [← cutAt_keepFrom hstart, hzero]
  rfl

end Marginalia.Section
