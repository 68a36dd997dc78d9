import Marginalia.Proofs.Identifier
import Marginalia.Proofs.Removal

/-!
# Which marks survive

Every removal holds at least one index, so a mark is lost exactly if one of its indices is erased.
Removals are whole lines, so a mark within one line is lost exactly if its first index is erased.
-/

namespace Marginalia
set_option autoImplicit false

namespace Span

def Filled (s : Span) : Prop := s.start < s.stop

theorem filled_of_mem_merge {spans : List Span} (h : ∀ s ∈ spans, s.Filled) :
    ∀ t ∈ merge spans, t.Filled := by
  intro t ht
  obtain ⟨⟨a, ha, hstart, hreach⟩, -⟩ := bounds_of_mem_merge ht
  have hfilled : a.start < a.stop := h a ha
  show t.start < t.stop
  omega

section Erase
variable {removals : List Span} (hproper : ∀ s ∈ removals, s.Proper)
  (hfilled : ∀ s ∈ removals, s.Filled)
include hproper hfilled

/-- A mark whose first index stays is lost exactly if another of its indices is erased. -/
theorem eraseStart_nonneg_iff_stays {i length : Nat} (hi : stays removals i = true) :
    0 ≤ eraseStart length i removals ↔
      ∀ k, i ≤ k → k < i + length → stays removals k = true := by
  rw [eraseStart_nonneg_iff hproper (Int.natCast_nonneg i) (Int.natCast_nonneg length)]
  constructor
  · intro hfree k hk hlt
    exact stays_of_not_strikes hfree (by omega) (by omega)
  · intro hall t ht ⟨hstart, hstop⟩
    have hpos := (proper_of_mem_merge hproper t ht).1
    have hfill : t.start < t.stop := filled_of_mem_merge hfilled t ht
    -- The first index that the mark and the span have in common.
    let k := max i t.start.toNat
    have hstays : stays removals k = true := by
      by_cases hk : k = i
      · rw [hk]
        exact hi
      · exact hall k (by omega) (by omega)
    rw [stays, ← covered_merge, Bool.not_eq_true', ← Bool.not_eq_true, covered_iff] at hstays
    exact hstays ⟨t, ht, by omega, by omega⟩

omit hfilled in
theorem eraseStart_eq_countBelow {i length : Nat} (hkept : 0 ≤ eraseStart length i removals) :
    eraseStart length i removals = Text.countBelow (stays removals) i := by
  have hmoved := eraseStart_eq_of_nonneg hproper (Int.natCast_nonneg i) (Int.natCast_nonneg length) hkept
  have hcount := countBelow_stays removals i
  rw [Int.toNat_natCast] at hmoved
  omega

omit hproper hfilled in
theorem countBelow_stays_inj {i k : Nat} (hi : stays removals i = true) (hk : stays removals k = true)
    (h : Text.countBelow (stays removals) i = Text.countBelow (stays removals) k) : i = k := by
  have hstep : ∀ {a b : Nat}, stays removals a = true → a < b →
      Text.countBelow (stays removals) a < Text.countBelow (stays removals) b := by
    intro a b ha hab
    have hsucc : Text.countBelow (stays removals) (a + 1) =
        Text.countBelow (stays removals) a + 1 := by
      rw [Text.countBelow_succ, if_pos ha]
    have hmono := Text.countBelow_mono (p := stays removals) (show a + 1 ≤ b from hab)
    omega
  rcases Nat.lt_trichotomy i k with hlt | heq | hlt
  · have := hstep hi hlt
    omega
  · exact heq
  · have := hstep hk hlt
    omega

end Erase

end Span

namespace Line

theorem span_filled (l : Line) : l.span.Filled := by
  unfold Span.Filled span
  dsimp only
  omega

theorem exists_mem_place {first i : Nat} {texts : List (List Char)} (hi : first ≤ i)
    (hlt : i < first + (Position.withFeeds texts).flatten.length) :
    ∃ l ∈ place first texts, l.start ≤ i ∧ i ≤ l.start + l.text.length ∧
      (l.start + l.text.length < first + (Position.withFeeds texts).flatten.length →
        (Position.withFeeds texts).flatten[l.start + l.text.length - first]? = some '\n') := by
  induction texts generalizing first with
  | nil =>
    simp only [Position.withFeeds, List.flatten_nil, List.length_nil] at hlt
    omega
  | cons text rest ih =>
    cases rest with
    | nil =>
      simp only [Position.withFeeds, List.flatten_cons, List.flatten_nil, List.append_nil] at hlt ⊢
      refine ⟨⟨first, text⟩, List.mem_cons_self, hi, Nat.le_of_lt hlt, ?_⟩
      exact fun hbehind => absurd hbehind (Nat.lt_irrefl _)
    | cons next more =>
      simp only [Position.withFeeds, List.flatten_cons, List.length_append,
        List.length_singleton] at hlt ⊢
      by_cases hhere : i ≤ first + text.length
      · refine ⟨⟨first, text⟩, List.mem_cons_self, hi, hhere, ?_⟩
        intro _
        have hindex : first + text.length - first = text.length := by omega
        rw [hindex, List.append_assoc, List.getElem?_append_right (Nat.le_refl _), Nat.sub_self]
        rfl
      · obtain ⟨l, hl, hstart, hstop, hfeed⟩ := @ih (first + text.length + 1) (by omega) (by omega)
        refine ⟨l, List.mem_cons_of_mem _ hl, hstart, hstop, ?_⟩
        intro hbehind
        have hle := start_le_of_mem_place hl
        have hindex : l.start + l.text.length - first =
            (text ++ ['\n']).length + (l.start + l.text.length - (first + text.length + 1)) := by
          rw [List.length_append, List.length_singleton]
          omega
        rw [hindex, List.getElem?_append_right (by omega), Nat.add_sub_cancel_left]
        exact hfeed (by omega)

theorem exists_mem_all {code : List Char} {i : Nat} (h : i < code.length) :
    ∃ l ∈ all code, l.start ≤ i ∧ i ≤ l.start + l.text.length ∧
      (l.start + l.text.length < code.length → code[l.start + l.text.length]? = some '\n') := by
  have hflat := Position.flatten_linesOf code
  unfold Position.linesOf at hflat
  have hfound := @exists_mem_place 0 i (Text.splitOn '\n' code) (Nat.zero_le i)
  rw [hflat, Nat.zero_add] at hfound
  simp only [Nat.sub_zero] at hfound
  exact hfound h

theorem Whole.eq_of_no_feed {code : List Char} {p : Nat → Bool} {kept : Line → Bool}
    (h : Whole code p kept) {i length : Nat} (hstop : i + length ≤ code.length)
    (hfeed : '\n' ∉ (code.drop i).take length) {k : Nat} (hk : i ≤ k) (hlt : k < i + length) :
    p k = p i := by
  obtain ⟨l, hl, hstart, hle, hnext⟩ := exists_mem_all (show i < code.length by omega)
  have hsame : k ≤ l.start + l.text.length := by
    apply Nat.le_of_not_lt
    intro hbehind
    apply hfeed
    have hat := hnext (by omega)
    apply List.mem_of_getElem? (i := l.start + l.text.length - i)
    rw [List.getElem?_take_of_lt (by omega), List.getElem?_drop]
    have hindex : i + (l.start + l.text.length - i) = l.start + l.text.length := by omega
    rw [hindex]
    exact hat
  rw [h l hl k (by omega) hsame (by omega), h l hl i hstart hle (by omega)]

end Line

namespace Cut

theorem text_pos_of_mem_lines {mark : Mark} {code : List Char} {l : Line} (h : l ∈ lines mark code) :
    0 < l.text.length := by
  have hmark := (List.mem_filter.mp h).2
  cases htext : l.text with
  | nil =>
    rw [htext] at hmark
    cases hmark
  | cons c rest => exact Nat.zero_lt_succ _

theorem filled_of_mem_findAll {code : List Char} {cuts : List Span} (h : findAll code = .ok cuts) :
    ∀ s ∈ cuts, s.Filled := by
  intro s hs
  unfold Span.Filled
  rcases (mem_findAll_iff h).mp hs with ⟨b, -, rfl⟩ | ⟨a, ha, rfl⟩ | ⟨b, e, -, hle, rfl⟩
  · simp only [Line.span]
    omega
  · -- A line that cuts is not empty, so it ends behind its start.
    have hmem := List.mem_of_head? ha
    have hpos := text_pos_of_mem_lines hmem
    have hstop := Line.stop_le_of_mem_all (mem_all_of_mem_lines hmem)
    dsimp only
    omega
  · simp only [Line.span]
    omega

end Cut

namespace Plan
variable {start plan : Plan} {vocabulary : Flag.Vocabulary} {root : String} {code : List Char}
  {tags : List Note}

theorem removals_filled (h : start.read vocabulary root code = .ok (plan, tags)) :
    ∀ s ∈ plan.removals, s.Filled := by
  obtain ⟨flags, cuts, hflags, hcuts, -, -, rfl⟩ := read_ok h
  intro s hs
  rcases List.mem_append.mp hs with hs | hs
  · rcases List.mem_append.mp hs with hs | hs
    · obtain ⟨f, hf, rfl⟩ := List.mem_map.mp hs
      obtain ⟨l, -, hspan⟩ := Flag.exists_line_of_mem_findAll hflags hf
      rw [hspan]
      exact l.span_filled
    · exact Cut.filled_of_mem_findAll hcuts s hs
  · obtain ⟨x, -, rfl⟩ := List.mem_map.mp hs
    exact x.1.span_filled

theorem removes_eq (plan : Plan) (i : Nat) : plan.removes i = !Span.stays plan.removals i := by
  unfold Span.stays
  rw [Bool.not_not]
  rfl

/-- An identifier within one line stays as a whole if its first index stays. -/
theorem stays_of_standsIn (h : start.read vocabulary root code = .ok (plan, tags)) {x : Identifier}
    (hx : x.StandsIn code) (hfeed : '\n' ∉ x.text) {i : Nat} (hi : x.span.start = i)
    (hstays : Span.stays plan.removals i = true) :
    ∀ k, i ≤ k → k < i + x.text.length → Span.stays plan.removals k = true := by
  obtain ⟨first, hspan, hstop, htext⟩ := hx
  obtain rfl : first = i := by
    rw [hspan] at hi
    exact Int.ofNat.inj hi
  obtain ⟨flags, -, hflags, -⟩ := read_ok h
  intro k hk hlt
  rw [← hstays]
  refine (removals_whole h hflags).eq_of_no_feed hstop ?_ hk hlt
  rw [htext]
  exact hfeed

end Plan

namespace Token

theorem mode_read {s : State} {i : Nat} {c : Char} {next : Option Char} {start : Nat}
    {chars : List Char} (h : (s.read i c next).1.mode = .word start chars) :
    c ≠ '\n' ∧ (chars = [c] ∨ ∃ old, s.mode = .word start old ∧ chars = c :: old) := by
  have hcode : ∀ t : State, (t.readCode i c next).mode = .word start chars →
      c ≠ '\n' ∧ (chars = [c] ∨ ∃ old, s.mode = .word start old ∧ chars = c :: old) := by
    intro t ht
    refine ⟨?_, Or.inl (mode_readCode ht).2⟩
    rintro rfl
    cases ht
  unfold State.read at h
  cases hmode : s.mode with
  | code =>
    rw [hmode] at h hcode
    exact hcode s h
  | lineComment => rw [hmode] at h; dsimp only at h; split at h <;> cases h
  | blockOpening => rw [hmode] at h; cases h
  | blockComment star => rw [hmode] at h; dsimp only at h; split at h <;> cases h
  | quoted quote escaped =>
    rw [hmode] at h
    cases escaped
    · dsimp only at h
      split at h <;> cases h
    · cases h
  | template escaped =>
    rw [hmode] at h
    cases escaped
    · dsimp only at h
      split at h
      · cases h
      · split at h <;> cases h
    · cases h
  | codeOpening => rw [hmode] at h; cases h
  | number =>
    rw [hmode] at h hcode
    dsimp only at h
    split at h
    · rw [hmode] at h
      cases h
    · exact hcode s h
  | word first old =>
    rw [hmode] at h hcode
    dsimp only at h
    split at h
    · next hpart =>
      cases h
      refine ⟨?_, Or.inr ⟨old, rfl, rfl⟩⟩
      rintro rfl
      cases hpart
    · exact hcode _ h

theorem no_feed_of_word {afterPoint : Bool} {start : Nat} {chars : List Char} {x : Identifier}
    (h : '\n' ∉ chars) (hx : wordIdentifier? afterPoint start chars = some x) : '\n' ∉ x.text := by
  unfold wordIdentifier? at hx
  dsimp only at hx
  split at hx
  · rw [← Option.some.inj hx]
    exact fun hmem => h (List.mem_reverse.mp hmem)
  · cases hx

theorem no_feed_of_mem_scan {s : State} {i : Nat} {rest : List Char}
    (h : ∀ start chars, s.mode = .word start chars → '\n' ∉ chars) :
    ∀ x ∈ scan s i rest, '\n' ∉ x.text := by
  induction rest generalizing s i with
  | nil =>
    intro x hx
    unfold scan at hx
    split at hx
    · next start chars hmode => exact no_feed_of_word (h start chars hmode) (Option.mem_toList.mp hx)
    · exact absurd hx List.not_mem_nil
  | cons c rest ih =>
    intro x hx
    simp only [scan] at hx
    rcases List.mem_append.mp hx with hx | hx
    · obtain ⟨start, chars, hmode, hfound⟩ := found_of_read (Option.mem_toList.mp hx)
      exact no_feed_of_word (h start chars hmode) hfound
    · refine ih ?_ x hx
      intro start chars hmode
      obtain ⟨hc, rfl | ⟨old, hold, rfl⟩⟩ := mode_read hmode
      · exact fun hmem => hc (List.mem_singleton.mp hmem).symm
      · intro hmem
        rcases List.mem_cons.mp hmem with he | hmem
        · exact hc he.symm
        · exact h start old hold hmem

theorem no_feed_of_mem_identifiers {content : List Char} :
    ∀ x ∈ identifiers content, '\n' ∉ x.text :=
  no_feed_of_mem_scan fun start chars hw => by cases hw

end Token

end Marginalia
