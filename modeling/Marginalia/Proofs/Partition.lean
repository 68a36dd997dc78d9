import Marginalia.Proofs.Directive
import Marginalia.Proofs.Removal
import Marginalia.Proofs.Section

/-!
# Sections make up their sample

The sections of a sample stand one behind the other and make it up.  A section opens at every file
line and at no other line; what stands before the first file line is a section of its own.  A
stretch between two starts of lines has the lines of the sample, so no section has a file line but
the one that opens it.
-/

namespace Marginalia
set_option autoImplicit false

/-! ## Lines of a stretch -/

namespace Text
variable {cs : List Char} {a b : Nat}

theorem slice_append_drop (hab : a ≤ b) (hb : b ≤ cs.length) :
    (cs.take b).drop a ++ cs.drop b = cs.drop a := by
  have hle : a ≤ (cs.take b).length := by
    rw [List.length_take]
    omega
  have happend : (cs.take b ++ cs.drop b).drop a = (cs.take b).drop a ++ cs.drop b :=
    List.drop_append_of_le_length hle
  rw [List.take_append_drop] at happend
  exact happend.symm

def inSlice (a b i : Nat) : Bool := decide (a ≤ i) && decide (i < b)

theorem inSlice_iff {i : Nat} : inSlice a b i = true ↔ a ≤ i ∧ i < b := by
  simp [inSlice]

theorem countBelow_inSlice {i : Nat} (hi : a ≤ i) (hib : i ≤ b) :
    countBelow (inSlice a b) i = i - a := by
  -- Nothing counts before the stretch, and in it every index does.
  have hbefore : countBelow (inSlice a b) (0 + a) = countBelow (inSlice a b) 0 := by
    apply countBelow_add_of_none
    intro k _ hk
    simp [inSlice]
    omega
  have hinside : countBelow (inSlice a b) (a + (i - a)) = countBelow (inSlice a b) a + (i - a) := by
    apply countBelow_add
    intro k hk hlt
    exact inSlice_iff.mpr ⟨hk, by omega⟩
  have hzero : countBelow (inSlice a b) 0 = 0 := rfl
  rw [Nat.zero_add, hzero] at hbefore
  rw [hbefore, Nat.add_sub_cancel' hi, Nat.zero_add] at hinside
  exact hinside

theorem keepFrom_inSlice (hab : a ≤ b) (hb : b ≤ cs.length) :
    keepFrom (inSlice a b) 0 cs = (cs.take b).drop a := by
  have hbehind : countBelow (inSlice a b) (b + (cs.length - b)) = countBelow (inSlice a b) b := by
    apply countBelow_add_of_none
    intro k hk _
    simp [inSlice]
    omega
  have hlength := length_keepFrom_take (p := inSlice a b) (Nat.le_refl cs.length)
  rw [Nat.add_sub_cancel' hb, countBelow_inSlice hab (Nat.le_refl b)] at hbehind
  rw [List.take_length, hbehind] at hlength
  have hinside : ∀ i, a ≤ i → i < a + (b - a) → inSlice a b i = true :=
    fun i hi hlt => inSlice_iff.mpr ⟨hi, by omega⟩
  have hslice := slice_keepFrom_of_all (show a + (b - a) ≤ cs.length by omega) hinside
  rw [countBelow_inSlice (Nat.le_refl a) hab, Nat.sub_self, Nat.zero_add, ← hlength, List.take_length,
    hlength, Nat.add_sub_cancel' hab] at hslice
  exact hslice

end Text

namespace Line
variable {code : List Char} {a b : Nat}

/-- A place that is inside no line: the start of a line, or an end of the sample. -/
def Boundary (code : List Char) (i : Nat) : Prop :=
  i = 0 ∨ i = code.length ∨ ∃ l ∈ all code, l.start = i

theorem Boundary.lt_iff (h : Boundary code b) {l : Line} (hl : l ∈ all code) {i : Nat}
    (hi : l.start ≤ i) (hle : i ≤ l.start + l.text.length) (hcode : i < code.length) :
    i < b ↔ l.start < b := by
  rcases h with rfl | rfl | ⟨m, hm, rfl⟩
  · omega
  · omega
  · have hstart := start_le_index_iff hl hm hi hle
    omega

theorem Boundary.le_length (h : Boundary code b) : b ≤ code.length := by
  rcases h with rfl | rfl | ⟨m, hm, rfl⟩
  · omega
  · omega
  · have hstop := stop_le_of_mem_all hm
    omega

theorem select_slice {α : Type} (recognise : List Char → Option α) (hempty : recognise [] = none)
    (ha : Boundary code a) (hb : Boundary code b) (hab : a ≤ b) :
    select recognise ((code.take b).drop a) =
      ((select recognise code).filter fun x => Text.inSlice a b x.1.start).map
        fun x => (⟨x.1.start - a, x.1.text⟩, x.2) := by
  have hwhole : Whole code (Text.inSlice a b) fun l => Text.inSlice a b l.start := by
    intro l hl i hi hle hcode
    have hbefore := ha.lt_iff hl hi hle hcode
    have hbehind := hb.lt_iff hl hi hle hcode
    apply Bool.eq_iff_iff.mpr
    simp only [Text.inSlice_iff]
    omega
  rw [← Text.keepFrom_inSlice hab hb.le_length, hwhole.select_keepFrom hempty]
  apply List.map_congr_left
  intro x hx
  obtain ⟨hbefore, hbehind⟩ := Text.inSlice_iff.mp (List.mem_filter.mp hx).2
  simp only [moved, Text.countBelow_inSlice hbefore (Nat.le_of_lt hbehind)]

end Line

/-! ## Sections and file lines -/

namespace Section
variable {root : String} {code : List Char} {l : Line} {name : String}
  {named rest : List (Line × String)}

/-- Where the stretch before the first of the file lines ends. -/
def stopBefore (code : List Char) : List (Line × String) → Nat
  | [] => code.length
  | (l, _) :: _ => l.start

def openings (root : String) (code : List Char) : List (Line × String) → List Section
  | [] => []
  | (l, name) :: rest =>
    make root l.start name ((code.take (stopBefore code rest)).drop l.start) ::
      openings root code rest

theorem mem_fileLines_iff :
    (l, name) ∈ fileLines code ↔ l ∈ Line.all code ∧ Directive.NamesFile l.text name := by
  rw [fileLines, Line.mem_select_iff, Directive.fileName?_eq_some_iff]

theorem boundary_of_mem_fileLines (h : (l, name) ∈ fileLines code) : Line.Boundary code l.start :=
  Or.inr (Or.inr ⟨l, (mem_fileLines_iff.mp h).1, rfl⟩)

structure Listed (code : List Char) (named : List (Line × String)) : Prop where
  mem : ∀ x ∈ named, x ∈ fileLines code
  sorted : named.Pairwise fun x y => x.1.start < y.1.start

theorem listed_fileLines (code : List Char) : Listed code (fileLines code) :=
  ⟨fun _ hx => hx, fileLines_pairwise code⟩

namespace Listed

theorem of_suffix {before : List (Line × String)} (h : fileLines code = before ++ named) :
    Listed code named := by
  have hsorted := fileLines_pairwise code
  rw [h] at hsorted
  refine ⟨fun x hx => ?_, (List.pairwise_append.mp hsorted).2.1⟩
  rw [h]
  exact List.mem_append_right before hx

theorem tail (h : Listed code ((l, name) :: rest)) : Listed code rest :=
  ⟨fun x hx => h.mem x (List.mem_cons_of_mem _ hx), (List.pairwise_cons.mp h.sorted).2⟩

theorem boundary (h : Listed code named) : Line.Boundary code (stopBefore code named) := by
  cases named with
  | nil => exact Or.inr (Or.inl rfl)
  | cons x rest => exact boundary_of_mem_fileLines (h.mem x List.mem_cons_self)

theorem lt_stopBefore (h : Listed code ((l, name) :: rest)) : l.start < stopBefore code rest := by
  cases rest with
  | cons x more => exact (List.pairwise_cons.mp h.sorted).1 x List.mem_cons_self
  | nil =>
    -- The last file line is not empty, so it ends behind its start.
    obtain ⟨hall, hname⟩ := Line.mem_select_iff.mp (h.mem _ List.mem_cons_self)
    have hstop := Line.stop_le_of_mem_all hall
    have hpos : 0 < l.text.length := by
      apply List.length_pos_iff.mpr
      intro hempty
      rw [hempty] at hname
      cases hname
    simp only [stopBefore]
    omega

theorem stopBefore_le (h : Listed code named) : ∀ x ∈ named, stopBefore code named ≤ x.1.start := by
  cases named with
  | nil => simp
  | cons y more =>
    intro x hx
    rcases List.mem_cons.mp hx with rfl | hx
    · exact Nat.le_refl _
    · exact Nat.le_of_lt ((List.pairwise_cons.mp h.sorted).1 x hx)

end Listed

theorem slice_ne_nil {a b : Nat} (hab : a < b) (hb : b ≤ code.length) :
    (code.take b).drop a ≠ [] := by
  apply List.length_pos_iff.mp
  rw [List.length_drop, List.length_take]
  omega

theorem piece_of_ne_nil {index : Nat} {content : List Char} (h : content ≠ []) :
    piece root index name content = [make root index name content] := by
  simp [piece, h]

/-- Each file line opens a section, and what stands before the first of them is one more. -/
theorem cutAt_eq (h : Listed code named) (index : Nat) (current : String) :
    cutAt root code index current named =
      piece root index current ((code.take (stopBefore code named)).drop index) ++
        openings root code named := by
  induction named generalizing index current with
  | nil => simp [cutAt_nil, stopBefore, openings]
  | cons x rest ih =>
    obtain ⟨l, name⟩ := x
    have hne := slice_ne_nil h.lt_stopBefore h.tail.boundary.le_length
    rw [cutAt_cons, ih h.tail, piece_of_ne_nil hne]
    rfl

theorem split_eq (code : List Char) (defaultName root : String) :
    split code defaultName root =
      piece root 0 (if (fileLines code).any (·.2 == defaultName) then reservedName else defaultName)
          (code.take (stopBefore code (fileLines code))) ++
        openings root code (fileLines code) :=
  cutAt_eq (listed_fileLines code) 0 _

theorem flatten_piece (index : Nat) (content : List Char) :
    ((piece root index name content).map Section.content).flatten = content := by
  by_cases h : content = []
  · simp [piece, h]
  · simp [piece_of_ne_nil h, make]

theorem flatten_openings (h : Listed code named) :
    ((openings root code named).map Section.content).flatten =
      code.drop (stopBefore code named) := by
  induction named with
  | nil => simp [openings, stopBefore]
  | cons x rest ih =>
    obtain ⟨l, name⟩ := x
    simp only [openings, List.map_cons, List.flatten_cons, ih h.tail, stopBefore]
    exact Text.slice_append_drop (Nat.le_of_lt h.lt_stopBefore) h.tail.boundary.le_length

/-- The first section stands at the index, and each of the others where the one before it ends. -/
def Chained : Nat → List Section → Prop
  | _, [] => True
  | index, s :: rest => s.offset = index ∧ Chained s.stop rest

theorem chained_openings (root : String) (h : Listed code named) :
    Chained (stopBefore code named) (openings root code named) := by
  induction named with
  | nil => trivial
  | cons x rest ih =>
    obtain ⟨l, name⟩ := x
    have hlt := h.lt_stopBefore
    have hle := h.tail.boundary.le_length
    have hstop : (make root l.start name ((code.take (stopBefore code rest)).drop l.start)).stop =
        stopBefore code rest := by
      simp only [stop, make, List.length_drop, List.length_take]
      omega
    refine ⟨rfl, ?_⟩
    rw [hstop]
    exact ih h.tail

theorem Chained.offset_eq {index : Nat} {before after : List Section} {s : Section}
    (h : Chained index (before ++ s :: after)) :
    s.offset = index + (before.map Section.content).flatten.length := by
  induction before generalizing index with
  | nil => simpa using h.1
  | cons t before ih =>
    obtain ⟨hoffset, hrest⟩ := h
    have hs := ih hrest
    simp only [stop, List.map_cons, List.flatten_cons, List.length_append] at hs ⊢
    omega

theorem chained_split (code : List Char) (defaultName root : String) :
    Chained 0 (split code defaultName root) := by
  have hopenings := chained_openings root (listed_fileLines code)
  have hle := (listed_fileLines code).boundary.le_length
  rw [split_eq]
  by_cases hfront : stopBefore code (fileLines code) = 0
  · simpa [hfront, piece] using hopenings
  · have hne : code.take (stopBefore code (fileLines code)) ≠ [] := by
      apply List.length_pos_iff.mp
      rw [List.length_take]
      omega
    rw [piece_of_ne_nil hne]
    refine ⟨rfl, ?_⟩
    simpa [stop, make, Nat.min_eq_left hle] using hopenings

/-- The line opens the section: the section starts at it and has the name that it gives, and no
other line of the section names a file. -/
structure OpenedBy (s : Section) (l : Line) : Prop where
  start : s.offset = l.start
  names : Directive.NamesFile l.text s.filename
  only : ∀ m ∈ Line.all s.content, ∀ name, Directive.NamesFile m.text name → m = ⟨0, l.text⟩

theorem fileLines_opening {before : List (Line × String)}
    (h : fileLines code = before ++ (l, name) :: rest) :
    fileLines ((code.take (stopBefore code rest)).drop l.start) = [(⟨0, l.text⟩, name)] := by
  have hlisted := Listed.of_suffix h
  have hlt := hlisted.lt_stopBefore
  have hsorted := fileLines_pairwise code
  rw [h] at hsorted
  have hbefore := (List.pairwise_append.mp hsorted).2.2
  have honly : (fileLines code).filter
      (fun x => Text.inSlice l.start (stopBefore code rest) x.1.start) = [(l, name)] := by
    have hin : Text.inSlice l.start (stopBefore code rest) l.start = true :=
      Text.inSlice_iff.mpr ⟨Nat.le_refl _, hlt⟩
    -- The stretch ends where the next file line starts, so the lines on both sides are not in it.
    rw [h, List.filter_append, List.filter_cons, if_pos hin, List.filter_eq_nil_iff.mpr,
      List.filter_eq_nil_iff.mpr]
    · rfl
    · intro x hx hin
      have hle := hlisted.tail.stopBefore_le x hx
      have hin := (Text.inSlice_iff.mp hin).2
      omega
    · intro x hx hin
      have hstart : x.1.start < l.start := hbefore x hx (l, name) List.mem_cons_self
      have hin := (Text.inSlice_iff.mp hin).1
      omega
  have hstart := boundary_of_mem_fileLines (hlisted.mem _ List.mem_cons_self)
  have hslice := Line.select_slice Directive.fileName? rfl hstart hlisted.tail.boundary
    (Nat.le_of_lt hlt)
  unfold fileLines at honly ⊢
  rw [hslice, honly]
  simp

theorem openedBy_of_eq (root : String) {before : List (Line × String)}
    (h : fileLines code = before ++ (l, name) :: rest) :
    (make root l.start name ((code.take (stopBefore code rest)).drop l.start)).OpenedBy l := by
  have hl : (l, name) ∈ fileLines code := by simp [h]
  refine ⟨rfl, (mem_fileLines_iff.mp hl).2, ?_⟩
  intro m hm other hnames
  have hmem := mem_fileLines_iff.mpr ⟨hm, hnames⟩
  rw [make, fileLines_opening h] at hmem
  exact (Prod.mk.inj (List.mem_singleton.mp hmem)).1

theorem openings_openedBy (root : String) {before : List (Line × String)}
    (h : fileLines code = before ++ named) :
    (∀ s ∈ openings root code named, ∃ x ∈ named, s.OpenedBy x.1) ∧
      ∀ x ∈ named, ∃ s ∈ openings root code named, s.OpenedBy x.1 := by
  induction named generalizing before with
  | nil => simp [openings]
  | cons x rest ih =>
    obtain ⟨l, name⟩ := x
    have hopened := openedBy_of_eq root h
    have hnext : fileLines code = (before ++ [(l, name)]) ++ rest := by simp [h]
    obtain ⟨hsections, hlines⟩ := ih hnext
    constructor
    · intro s hs
      rcases List.mem_cons.mp hs with rfl | hs
      · exact ⟨(l, name), List.mem_cons_self, hopened⟩
      · obtain ⟨x, hx, hs⟩ := hsections s hs
        exact ⟨x, List.mem_cons_of_mem _ hx, hs⟩
    · intro x hx
      rcases List.mem_cons.mp hx with rfl | hx
      · exact ⟨_, List.mem_cons_self, hopened⟩
      · obtain ⟨s, hs, hx⟩ := hlines x hx
        exact ⟨s, List.mem_cons_of_mem _ hs, hx⟩

theorem fileLines_front (code : List Char) :
    fileLines (code.take (stopBefore code (fileLines code))) = [] := by
  have hlisted := listed_fileLines code
  have hslice := Line.select_slice Directive.fileName? rfl (Or.inl rfl) hlisted.boundary (Nat.zero_le _)
  rw [List.drop_zero] at hslice
  rw [fileLines, hslice, List.filter_eq_nil_iff.mpr]
  · rfl
  · intro x hx hin
    have hin := (Text.inSlice_iff.mp hin).2
    have hle := hlisted.stopBefore_le x hx
    omega

theorem leading_name (code : List Char) (defaultName : String) :
    let leading := if (fileLines code).any (·.2 == defaultName) then reservedName else defaultName
    (leading = reservedName ∧ ∃ l ∈ Line.all code, Directive.NamesFile l.text defaultName) ∨
      (leading = defaultName ∧ ∀ l ∈ Line.all code, ¬ Directive.NamesFile l.text defaultName) := by
  by_cases htaken : (fileLines code).any (·.2 == defaultName)
  · left
    obtain ⟨⟨l, name⟩, hmem, hname⟩ := List.any_eq_true.mp htaken
    obtain rfl : name = defaultName := beq_iff_eq.mp hname
    exact ⟨if_pos htaken, l, mem_fileLines_iff.mp hmem⟩
  · right
    refine ⟨if_neg htaken, ?_⟩
    intro l hl hnames
    apply htaken
    have hmem := mem_fileLines_iff.mpr ⟨hl, hnames⟩
    exact List.any_eq_true.mpr ⟨(l, defaultName), hmem, beq_self_eq_true _⟩

/-- The sections of a sample partition it.  Their texts are not empty and make up the sample, and each
stands where those before it end.  The first may be a leading section: it has no line that names a
file, and it has the default name unless a line of the sample gives that name.  Each other section is
opened by a line that names a file, and each such line opens a section. -/
theorem split_partition (code : List Char) (defaultName root : String) :
    ∃ leading named, split code defaultName root = leading ++ named ∧
      ((leading ++ named).map Section.content).flatten = code ∧
      (∀ s ∈ leading ++ named, s.content ≠ [] ∧ s.path = root ++ s.filename) ∧
      (∀ before s after, leading ++ named = before ++ s :: after →
        s.offset = (before.map Section.content).flatten.length ∧
        (code.drop s.offset).take s.content.length = s.content) ∧
      (∀ s ∈ named, ∃ l ∈ Line.all code, s.OpenedBy l) ∧
      (∀ l ∈ Line.all code, ∀ name, Directive.NamesFile l.text name → ∃ s ∈ named, s.OpenedBy l) ∧
      (leading = [] ∨ ∃ s, leading = [s] ∧
        (∀ l ∈ Line.all s.content, ∀ name, ¬ Directive.NamesFile l.text name) ∧
        ((s.filename = reservedName ∧ ∃ l ∈ Line.all code, Directive.NamesFile l.text defaultName) ∨
          (s.filename = defaultName ∧
            ∀ l ∈ Line.all code, ¬ Directive.NamesFile l.text defaultName))) := by
  have hsplit := split_eq code defaultName root
  obtain ⟨hsections, hopening⟩ := openings_openedBy root (List.nil_append (fileLines code)).symm
  refine ⟨_, _, hsplit, ?_, ?_, ?_, ?_, ?_, ?_⟩
  · rw [List.map_append, List.flatten_append, flatten_piece,
      flatten_openings (listed_fileLines code), List.take_append_drop]
  · intro s hs
    rw [← hsplit] at hs
    exact ⟨(partOf_of_mem_split hs).ne_nil, congrArg Section.path (eq_make_of_mem_cutAt hs)⟩
  · intro before s after heq
    have hchain := chained_split code defaultName root
    have hs : s ∈ split code defaultName root := by
      rw [hsplit, heq]
      simp
    rw [hsplit, heq] at hchain
    refine ⟨?_, (partOf_of_mem_split hs).content⟩
    rw [hchain.offset_eq, Nat.zero_add]
  · intro s hs
    obtain ⟨x, hx, hopened⟩ := hsections s hs
    exact ⟨x.1, (mem_fileLines_iff.mp hx).1, hopened⟩
  · intro l hl name hnames
    exact hopening (l, name) (mem_fileLines_iff.mpr ⟨hl, hnames⟩)
  · by_cases hfront : code.take (stopBefore code (fileLines code)) = []
    · left
      simp [piece, hfront]
    · right
      refine ⟨_, piece_of_ne_nil hfront, ?_, ?_⟩
      · intro l hl name hnames
        have hmem := mem_fileLines_iff.mpr ⟨hl, hnames⟩
        simp [make, fileLines_front] at hmem
      · exact leading_name code defaultName

end Section

end Marginalia
