import Marginalia.Line
import Marginalia.Position
import Marginalia.Proofs.Text.Keep

/-!
# Laws of lines

The lines of a sample, each with its line feed, make up the sample.  They stand one behind the
other without gaps.  When a choice of characters takes or leaves every line as a whole, what is
kept are the kept lines, and reading the kept text again gives the same lines at their new places.
-/

namespace Marginalia
set_option autoImplicit false

namespace Text

theorem intercalate_splitOn (separator : Char) (cs : List Char) :
    [separator].intercalate (splitOn separator cs) = cs := by
  induction cs with
  | nil => rfl
  | cons c rest ih =>
    cases hs : splitOn separator rest with
    | nil => exact absurd hs (splitOn_ne_nil separator rest)
    | cons piece pieces =>
      rw [hs] at ih
      simp only [splitOn]
      split
      · next hc =>
        rw [hs, hc]
        simpa using ih
      · rw [hs]
        cases pieces with
        | nil => simpa using ih
        | cons next more => simpa using ih

theorem not_mem_of_mem_splitOn {separator : Char} {cs piece : List Char}
    (h : piece ∈ splitOn separator cs) : separator ∉ piece := by
  induction cs generalizing piece with
  | nil =>
    rw [List.mem_singleton.mp h]
    exact List.not_mem_nil
  | cons c rest ih =>
    simp only [splitOn] at h
    split at h
    · rcases List.mem_cons.mp h with rfl | h
      · exact List.not_mem_nil
      · exact ih h
    · next hc =>
      cases hs : splitOn separator rest with
      | nil => exact absurd hs (splitOn_ne_nil separator rest)
      | cons first pieces =>
        rw [hs] at h ih
        rcases List.mem_cons.mp h with rfl | h
        · intro hmem
          rcases List.mem_cons.mp hmem with he | hmem
          · exact hc he.symm
          · exact ih List.mem_cons_self hmem
        · exact ih (List.mem_cons_of_mem first h)

theorem splitOn_of_not_mem {separator : Char} {piece : List Char} (h : separator ∉ piece) :
    splitOn separator piece = [piece] := by
  induction piece with
  | nil => rfl
  | cons c rest ih =>
    have hc : c ≠ separator := fun he => h (he ▸ List.mem_cons_self)
    simp only [splitOn, if_neg hc, ih fun hm => h (List.mem_cons_of_mem c hm)]

theorem splitOn_append_cons {separator : Char} {piece : List Char} (h : separator ∉ piece)
    (rest : List Char) :
    splitOn separator (piece ++ separator :: rest) = piece :: splitOn separator rest := by
  induction piece with
  | nil => simp [splitOn]
  | cons c more ih =>
    have hc : c ≠ separator := fun he => h (he ▸ List.mem_cons_self)
    simp only [List.cons_append, splitOn, if_neg hc, ih fun hm => h (List.mem_cons_of_mem c hm)]

end Text

namespace Position

theorem flatten_linesOf (code : List Char) : (linesOf code).flatten = code := by
  rw [linesOf, flatten_withFeeds, Text.intercalate_splitOn]

end Position

namespace Line

theorem start_le_of_mem_place {first : Nat} {texts : List (List Char)} {l : Line}
    (h : l ∈ place first texts) : first ≤ l.start := by
  induction texts generalizing first with
  | nil => exact absurd h List.not_mem_nil
  | cons text rest ih =>
    rcases List.mem_cons.mp h with rfl | h
    · exact Nat.le_refl _
    · have := ih h
      omega

theorem place_pairwise (first : Nat) (texts : List (List Char)) :
    (place first texts).Pairwise fun a b => a.start + a.text.length + 1 ≤ b.start := by
  induction texts generalizing first with
  | nil => exact .nil
  | cons text rest ih =>
    refine List.pairwise_cons.mpr ⟨?_, ih _⟩
    exact fun l hl => start_le_of_mem_place hl

theorem all_pairwise (code : List Char) :
    (all code).Pairwise fun a b => a.start + a.text.length + 1 ≤ b.start :=
  place_pairwise 0 _

theorem eq_or_apart {code : List Char} {a b : Line} (ha : a ∈ all code) (hb : b ∈ all code) :
    a = b ∨ a.start + a.text.length < b.start ∨ b.start + b.text.length < a.start := by
  let Apart (a b : Line) : Prop :=
    a = b ∨ a.start + a.text.length < b.start ∨ b.start + b.text.length < a.start
  have hforth : (all code).Pairwise Apart :=
    (all_pairwise code).imp fun h => Or.inr (Or.inl (by omega))
  have hback : (all code).Pairwise (flip Apart) :=
    (all_pairwise code).imp fun h => Or.inr (Or.inr (by omega))
  exact List.Pairwise.forall_of_forall_of_flip (R := Apart) (fun a _ => Or.inl rfl) hforth hback ha hb

theorem length_le_of_mem_place {first : Nat} {texts : List (List Char)} {l : Line}
    (h : l ∈ place first texts) :
    l.start + l.text.length ≤ first + (Position.withFeeds texts).flatten.length := by
  induction texts generalizing first with
  | nil => exact absurd h List.not_mem_nil
  | cons text rest ih =>
    cases rest with
    | nil =>
      rw [List.mem_singleton.mp h]
      simp [Position.withFeeds]
    | cons next more =>
      simp only [Position.withFeeds, List.flatten_cons, List.length_append, List.length_singleton]
      rcases List.mem_cons.mp h with rfl | h
      · simp only
        omega
      · have := ih h
        omega

theorem stop_le_of_mem_all {code : List Char} {l : Line} (h : l ∈ all code) :
    l.start + l.text.length ≤ code.length := by
  have hle := length_le_of_mem_place h
  rwa [Nat.zero_add, ← Position.linesOf, Position.flatten_linesOf] at hle

theorem exists_of_mem_place {l : Line} {before : List Char} {texts : List (List Char)}
    (hne : texts ≠ []) (hfeeds : ∀ text ∈ texts, '\n' ∉ text)
    (h : l ∈ place before.length texts) :
    ∃ front back, before ++ (Position.withFeeds texts).flatten = front ++ (l.text ++ back) ∧
      front.length = l.start ∧ '\n' ∉ l.text ∧ (back = [] ∨ ∃ rest, back = '\n' :: rest) := by
  induction texts generalizing before with
  | nil => exact absurd rfl hne
  | cons text rest ih =>
    cases rest with
    | nil =>
      rw [List.mem_singleton.mp h]
      exact ⟨before, [], by simp [Position.withFeeds], rfl, hfeeds text List.mem_cons_self, Or.inl rfl⟩
    | cons next more =>
      rcases List.mem_cons.mp h with rfl | h
      · refine ⟨before, '\n' :: (Position.withFeeds (next :: more)).flatten, ?_, rfl,
          hfeeds text List.mem_cons_self, Or.inr ⟨_, rfl⟩⟩
        simp [Position.withFeeds]
      · have hlength : before.length + text.length + 1 = (before ++ (text ++ ['\n'])).length := by
          simp
          omega
        rw [hlength] at h
        have hlater := ih (List.cons_ne_nil next more)
          (fun t ht => hfeeds t (List.mem_cons_of_mem text ht)) h
        simpa [Position.withFeeds] using hlater

theorem exists_of_mem_all {code : List Char} {l : Line} (h : l ∈ all code) :
    ∃ front back, code = front ++ (l.text ++ back) ∧ front.length = l.start ∧ '\n' ∉ l.text ∧
      (back = [] ∨ ∃ rest, back = '\n' :: rest) := by
  have hplace : l ∈ place ([] : List Char).length (Text.splitOn '\n' code) := h
  have hsplit := exists_of_mem_place (Text.splitOn_ne_nil '\n' code)
    (fun text ht => Text.not_mem_of_mem_splitOn ht) hplace
  rwa [List.nil_append, ← Position.linesOf, Position.flatten_linesOf] at hsplit

theorem mem_select_iff {α : Type} {recognise : List Char → Option α} {code : List Char} {l : Line}
    {a : α} : (l, a) ∈ select recognise code ↔ l ∈ all code ∧ recognise l.text = some a := by
  simp only [select, List.mem_filterMap, Option.map_eq_some_iff, Prod.mk.injEq]
  constructor
  · rintro ⟨k, hk, b, hb, rfl, rfl⟩
    exact ⟨hk, hb⟩
  · rintro ⟨hl, ha⟩
    exact ⟨l, hl, a, ha, rfl, rfl⟩

/-- The lines of a sample, each with its characters in full: the line feed belongs to the line that
it ends. -/
def written (code : List Char) : List (Line × List Char) := (all code).zip (Position.linesOf code)

theorem map_fst_written (code : List Char) : (written code).map Prod.fst = all code := by
  apply List.map_fst_zip
  simp [all, Position.linesOf]

theorem flatMap_snd_written (code : List Char) : (written code).flatMap Prod.snd = code := by
  have hsnd : (written code).map Prod.snd = Position.linesOf code := by
    apply List.map_snd_zip
    simp [all, Position.linesOf]
  rw [List.flatMap_def, hsnd, Position.flatten_linesOf]

/-- The choice of indices takes or leaves each of the lines as a whole.  Only indices below `stop`
count, since the last line has no line feed. -/
def WholeIn (lines : List Line) (stop : Nat) (p : Nat → Bool) (kept : Line → Bool) : Prop :=
  ∀ l ∈ lines, ∀ i, l.start ≤ i → i ≤ l.start + l.text.length → i < stop → p i = kept l

def Whole (code : List Char) (p : Nat → Bool) (kept : Line → Bool) : Prop :=
  WholeIn (all code) code.length p kept

section Whole
variable {p : Nat → Bool} {kept : Line → Bool}

theorem Whole.of_start {code : List Char} (h : Whole code p kept) :
    Whole code p fun l => p l.start := by
  intro l hl i hi hle hlt
  have hfirst := h l hl l.start (Nat.le_refl _) (by omega) (by omega)
  exact (h l hl i hi hle hlt).trans hfirst.symm

theorem WholeIn.keepFrom_eq {first stop : Nat} {line text : List Char} {lines : List Line}
    (h : WholeIn (⟨first, line⟩ :: lines) stop p kept) (hlen : text.length ≤ line.length + 1)
    (hstop : first + text.length ≤ stop) :
    Text.keepFrom p first text = if kept ⟨first, line⟩ then text else [] := by
  have hall : ∀ i, first ≤ i → i < first + text.length → p i = kept ⟨first, line⟩ :=
    fun i hi hlt => h _ List.mem_cons_self i hi (by simp only; omega) (by omega)
  split
  · next hk => exact Text.keepFrom_eq_self fun i hi hlt => (hall i hi hlt).trans hk
  · next hk =>
    exact Text.keepFrom_eq_nil fun i hi hlt => (hall i hi hlt).trans (Bool.eq_false_iff.mpr hk)

theorem WholeIn.keepFrom_fed {first stop : Nat} {text : List Char} {lines : List Line}
    (h : WholeIn (⟨first, text⟩ :: lines) stop p kept) (hstop : first + (text.length + 1) ≤ stop) :
    Text.keepFrom p first (text ++ ['\n']) =
      if kept ⟨first, text⟩ then text ++ ['\n'] else [] := by
  apply h.keepFrom_eq (by simp)
  rw [List.length_append, List.length_singleton]
  exact hstop

theorem WholeIn.tail {stop : Nat} {l : Line} {lines : List Line}
    (h : WholeIn (l :: lines) stop p kept) : WholeIn lines stop p kept :=
  fun k hk => h k (List.mem_cons_of_mem l hk)

theorem keepFrom_flatten_withFeeds {first stop : Nat} {texts : List (List Char)}
    (hstop : stop = first + (Position.withFeeds texts).flatten.length)
    (h : WholeIn (place first texts) stop p kept) :
    Text.keepFrom p first (Position.withFeeds texts).flatten =
      (((place first texts).zip (Position.withFeeds texts)).filter fun x => kept x.1).flatMap
        Prod.snd := by
  induction texts generalizing first with
  | nil => rfl
  | cons text rest ih =>
    cases rest with
    | nil =>
      simp only [Position.withFeeds, List.flatten_cons, List.flatten_nil, List.append_nil] at hstop ⊢
      rw [h.keepFrom_eq (Nat.le_succ _) (Nat.le_of_eq hstop.symm)]
      cases hk : kept ⟨first, text⟩ <;> simp [place, hk]
    | cons next more =>
      simp only [Position.withFeeds, List.flatten_cons, List.length_append,
        List.length_singleton] at hstop ⊢
      have hline := h.keepFrom_fed (by omega)
      have hnext := @ih (first + text.length + 1) (by omega) h.tail
      rw [Text.keepFrom_append, hline, List.length_append, List.length_singleton,
        ← Nat.add_assoc, hnext]
      cases hk : kept ⟨first, text⟩ <;> simp [place, hk]

/-- What such a choice keeps are the kept lines, each in full. -/
theorem Whole.keepFrom_eq {code : List Char} (h : Whole code p kept) :
    Text.keepFrom p 0 code = ((written code).filter fun x => kept x.1).flatMap Prod.snd := by
  have hflat := Position.flatten_linesOf code
  have hstop : code.length = 0 + (Position.linesOf code).flatten.length := by
    rw [hflat, Nat.zero_add]
  have hkeep := keepFrom_flatten_withFeeds hstop h
  rwa [← Position.linesOf, hflat] at hkeep

def moved (p : Nat → Bool) (l : Line) : Line := ⟨Text.countBelow p l.start, l.text⟩

section Select
variable {α : Type} {recognise : List Char → Option α}

/-- Those of the lines that a recogniser accepts, with what it reads off them. -/
def recognised (recognise : List Char → Option α) (lines : List Line) : List (Line × α) :=
  lines.filterMap fun l => (recognise l.text).map fun a => (l, a)

theorem recognised_cons (l : Line) (lines : List Line) :
    recognised recognise (l :: lines) =
      ((recognise l.text).map fun a => (l, a)).toList ++ recognised recognise lines := by
  simp only [recognised, List.filterMap_cons]
  cases recognise l.text <;> rfl

theorem moved_recognised (l : Line) :
    ((((recognise l.text).map fun a => (l, a)).toList.filter fun x => kept x.1).map
        fun x => (x.1.moved p, x.2)) =
      if kept l then ((recognise l.text).map fun a => (l.moved p, a)).toList else [] := by
  cases hk : kept l <;> cases recognise l.text <;> simp [hk]

/-- The lines that go are not found again, and those that stay are found in their order.  Where the
last line goes, an empty one follows the line feed before it, so empty lines must not count. -/
theorem recognised_keepFrom (hempty : recognise [] = none) {first stop : Nat}
    {texts : List (List Char)} (hfeeds : ∀ text ∈ texts, '\n' ∉ text) (hne : texts ≠ [])
    (hstop : stop = first + (Position.withFeeds texts).flatten.length)
    (h : WholeIn (place first texts) stop p kept) :
    recognised recognise (place (Text.countBelow p first)
        (Text.splitOn '\n' (Text.keepFrom p first (Position.withFeeds texts).flatten))) =
      ((recognised recognise (place first texts)).filter fun x => kept x.1).map
        fun x => (x.1.moved p, x.2) := by
  induction texts generalizing first with
  | nil => exact absurd rfl hne
  | cons text rest ih =>
    have htext : '\n' ∉ text := hfeeds text List.mem_cons_self
    simp only [place]
    rw [recognised_cons, List.filter_append, List.map_append, moved_recognised]
    cases rest with
    | nil =>
      simp only [Position.withFeeds, List.flatten_cons, List.flatten_nil, List.append_nil] at hstop ⊢
      rw [h.keepFrom_eq (Nat.le_succ _) (Nat.le_of_eq hstop.symm)]
      cases hk : kept ⟨first, text⟩ with
      | true =>
        rw [if_pos rfl, if_pos rfl, Text.splitOn_of_not_mem htext]
        simp only [place]
        rw [recognised_cons]
        rfl
      | false => simp [Text.splitOn, place, recognised, hempty]
    | cons next more =>
      simp only [Position.withFeeds, List.flatten_cons, List.length_append,
        List.length_singleton] at hstop ⊢
      have hline := h.keepFrom_fed (by omega)
      have hnext := @ih (first + text.length + 1) (fun t ht => hfeeds t (List.mem_cons_of_mem text ht))
        (List.cons_ne_nil next more) (by omega) h.tail
      have hall : ∀ i, first ≤ i → i < first + (text.length + 1) → p i = kept ⟨first, text⟩ :=
        fun i hi hlt => h _ List.mem_cons_self i hi (by simp only; omega) (by omega)
      rw [Text.keepFrom_append, hline, List.length_append, List.length_singleton, ← Nat.add_assoc,
        ← hnext, Nat.add_assoc]
      -- A line that stays is split off again; one that goes leaves nothing, not even an empty line.
      cases hk : kept ⟨first, text⟩ with
      | true =>
        have hcount := Text.countBelow_add fun i hi hlt => (hall i hi hlt).trans hk
        rw [if_pos rfl, if_pos rfl, List.append_assoc, List.singleton_append,
          Text.splitOn_append_cons htext, place, recognised_cons, hcount, Nat.add_assoc]
        rfl
      | false =>
        have hcount := Text.countBelow_add_of_none fun i hi hlt => (hall i hi hlt).trans hk
        rw [if_neg Bool.false_ne_true, if_neg Bool.false_ne_true, hcount]
        rfl

theorem Whole.select_keepFrom {code : List Char} (h : Whole code p kept)
    (hempty : recognise [] = none) :
    select recognise (Text.keepFrom p 0 code) =
      ((select recognise code).filter fun x => kept x.1).map fun x => (x.1.moved p, x.2) := by
  have hflat := Position.flatten_linesOf code
  have hstop : code.length = 0 + (Position.linesOf code).flatten.length := by
    rw [hflat, Nat.zero_add]
  have hfound := recognised_keepFrom hempty (fun text ht => Text.not_mem_of_mem_splitOn ht)
    (Text.splitOn_ne_nil '\n' code) hstop h
  rw [← Position.linesOf, hflat] at hfound
  exact hfound

end Select

end Whole

end Line

end Marginalia
