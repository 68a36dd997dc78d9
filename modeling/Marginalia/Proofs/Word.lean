import Mathlib.Data.List.DropRight
import Marginalia.Proofs.Directive
import Marginalia.Proofs.Kind

/-!
# The word behind a note

A note about an identifier tells what the checker knows about the word at the identifier's start.
Identifiers and words are read by two rules: every character beyond ASCII belongs to an identifier,
which may begin with a number sign, while a word begins within ASCII and takes letters and digits
only.  The two are the same exactly if the identifier is a word.
-/

namespace Marginalia
set_option autoImplicit false

theorem Text.of_ascii {p : Char → Bool} (h : ∀ n < 128, p (Char.ofNat n) = true) {c : Char}
    (hc : c.toNat < 128) : p c = true := by
  have hn := h c.toNat hc
  rwa [Char.ofNat_toNat] at hn

namespace Checker

/-- What a checker reads as one word. -/
def isWord : List Char → Bool
  | [] => false
  | c :: rest => isWordStart c && rest.all isWordPart

def lastWord (text : List Char) : List Char :=
  (text.rtakeWhile isWordPart).dropWhile fun c => !isWordStart c

theorem lt_of_isWordStart {c : Char} (h : isWordStart c = true) : c.toNat < 128 := by
  simp only [isWordStart, Bool.or_eq_true, beq_iff_eq] at h
  rcases h with (halpha | rfl) | rfl
  · rcases Bool.or_eq_true_iff.mp halpha with hupper | hlower
    · have hle := (of_decide_eq_true hupper).2
      exact Nat.lt_of_le_of_lt (UInt32.le_iff_toNat_le.mp hle) (by decide)
    · have hle := of_decide_eq_true (Bool.and_eq_true_iff.mp hlower).2
      exact Nat.lt_of_le_of_lt (UInt32.le_iff_toNat_le.mp hle) (by decide)
  · decide
  · decide

theorem isWordPart_of_isWordStart {c : Char} (h : isWordStart c = true) : isWordPart c = true := by
  have hc := Text.of_ascii (p := fun c => !isWordStart c || isWordPart c) (by decide)
    (lt_of_isWordStart h)
  simpa [h] using hc

theorem isWord_append {t u : List Char} (ht : isWord t = true) (hu : ∀ c ∈ u, isWordPart c = true) :
    isWord (t ++ u) = true := by
  cases t with
  | nil => cases ht
  | cons c rest =>
    simp only [isWord, Bool.and_eq_true] at ht
    simp only [List.cons_append, isWord, List.all_append, Bool.and_eq_true]
    exact ⟨ht.1, ht.2, List.all_eq_true.mpr hu⟩

theorem takeWhile_of_isWord {t : List Char} (h : isWord t = true) : t.takeWhile isWordPart = t := by
  cases t with
  | nil => rfl
  | cons c rest =>
    simp only [isWord, Bool.and_eq_true] at h
    rw [List.takeWhile_cons_of_pos (isWordPart_of_isWordStart h.1),
      List.takeWhile_eq_self_iff.mpr (List.all_eq_true.mp h.2)]

theorem isWord_lastWord {text : List Char} (h : lastWord text ≠ []) : isWord (lastWord text) = true := by
  have hhead : isWordStart ((lastWord text).head h) = true := by
    have hnot := List.head_dropWhile_not (fun c => !isWordStart c) h
    rwa [Bool.not_eq_false'] at hnot
  have hparts : ∀ c ∈ lastWord text, isWordPart c = true := by
    intro c hc
    exact List.mem_rtakeWhile_imp ((List.dropWhile_sublist _).subset hc)
  cases hword : lastWord text with
  | nil => exact absurd hword h
  | cons c rest =>
    simp only [hword, List.head_cons] at hhead
    rw [hword] at hparts
    rw [isWord, hhead, Bool.true_and]
    exact List.all_eq_true.mpr fun d hd => hparts d (List.mem_cons_of_mem c hd)

theorem lastWord_of_not_part {text : List Char} {c : Char} (h : isWordPart c = false) :
    lastWord (text ++ [c]) = [] := by
  unfold lastWord
  rw [List.rtakeWhile_concat_neg _ _ _ (Bool.eq_false_iff.mp h), List.dropWhile_nil]

theorem lastWord_of_part {text : List Char} {c : Char} (h : isWordPart c = true) :
    lastWord (text ++ [c]) = if lastWord text = [] then (if isWordStart c then [c] else [])
      else lastWord text ++ [c] := by
  unfold lastWord
  rw [List.rtakeWhile_concat_pos _ _ _ h, List.dropWhile_append]
  simp only [List.isEmpty_iff]
  split
  · cases hstart : isWordStart c with
    | true => simp [hstart]
    | false => simp [hstart]
  · rfl

inductive Opened (done : List Char) : Option Word → Prop where
  | none (h : lastWord done = []) : Opened done none
  | some {w : Word} (htext : w.text.reverse = lastWord done) (hne : lastWord done ≠ [])
      (hstop : w.start + w.text.length = done.length) : Opened done (some w)

theorem opened_step {done : List Char} {o : Option Word} (h : Opened done o) (c : Char)
    (rest : List Char) :
    ∃ closed o', wordsFrom o done.length (c :: rest) = closed ++ wordsFrom o' (done.length + 1) rest ∧
      Opened (done ++ [c]) o' ∧ ∀ w ∈ closed, w.start + w.text.length = done.length := by
  cases h with
  | none hnone =>
    cases hstart : isWordStart c with
    | true =>
      have hpart := isWordPart_of_isWordStart hstart
      refine ⟨[], some ⟨done.length, [c]⟩, ?_, ?_, fun w hw => absurd hw List.not_mem_nil⟩
      · simp only [wordsFrom, hstart, if_true, List.nil_append]
      · have hlast : lastWord (done ++ [c]) = [c] := by
          rw [lastWord_of_part hpart, if_pos hnone, if_pos hstart]
        refine .some hlast.symm ?_ (by simp)
        rw [hlast]
        exact List.cons_ne_nil c []
    | false =>
      refine ⟨[], none, ?_, .none ?_, fun w hw => absurd hw List.not_mem_nil⟩
      · simp [wordsFrom, hstart]
      · cases hpart : isWordPart c with
        | true => rw [lastWord_of_part hpart, if_pos hnone, hstart, if_neg Bool.false_ne_true]
        | false => exact lastWord_of_not_part hpart
  | @some w htext hne hstop =>
    cases hpart : isWordPart c with
    | true =>
      refine ⟨[], some ⟨w.start, c :: w.text⟩, ?_, ?_, fun w hw => absurd hw List.not_mem_nil⟩
      · simp only [wordsFrom, hpart, if_true, List.nil_append]
      · have hlast : lastWord (done ++ [c]) = lastWord done ++ [c] := by
          rw [lastWord_of_part hpart, if_neg hne]
        refine .some ?_ ?_ ?_
        · rw [hlast, ← htext, List.reverse_cons]
        · rw [hlast]
          exact List.append_ne_nil_of_left_ne_nil hne [c]
        · simp only [List.length_cons, List.length_append, List.length_nil]
          omega
    | false =>
      refine ⟨[⟨w.start, w.text.reverse⟩], none, ?_, .none (lastWord_of_not_part hpart), ?_⟩
      · simp [wordsFrom, hpart]
      · intro v hv
        obtain rfl := List.mem_singleton.mp hv
        rw [List.length_reverse]
        exact hstop

theorem exists_words_append (before after : List Char) :
    ∃ closed o, words (before ++ after) = closed ++ wordsFrom o before.length after ∧
      Opened before o ∧ ∀ w ∈ closed, w.start + w.text.length < before.length := by
  induction before using List.reverseRecOn generalizing after with
  | nil => exact ⟨[], none, rfl, .none rfl, fun w hw => absurd hw List.not_mem_nil⟩
  | append_singleton done c ih =>
    obtain ⟨closed, o, hwords, hopened, hbefore⟩ := ih (c :: after)
    obtain ⟨more, o', hstep, hopened', hmore⟩ := opened_step hopened c after
    refine ⟨closed ++ more, o', ?_, hopened', ?_⟩
    · rw [← List.append_cons, hwords, hstep, List.append_assoc, List.length_append,
        List.length_singleton]
    · intro w hw
      rw [List.length_append, List.length_singleton]
      rcases List.mem_append.mp hw with hw | hw
      · exact Nat.lt_succ_of_lt (hbefore w hw)
      · exact Nat.lt_succ_of_le (hmore w hw).le

theorem exists_wordsFrom_some (w : Word) (i : Nat) (text : List Char) :
    ∃ rest, wordsFrom (some w) i text =
      ⟨w.start, w.text.reverse ++ text.takeWhile isWordPart⟩ :: rest := by
  induction text generalizing w i with
  | nil => exact ⟨[], by simp [wordsFrom]⟩
  | cons c text ih =>
    cases hpart : isWordPart c with
    | true =>
      obtain ⟨rest, hrest⟩ := ih ⟨w.start, c :: w.text⟩ (i + 1)
      refine ⟨rest, ?_⟩
      rw [wordsFrom, if_pos hpart, hrest, List.takeWhile_cons_of_pos hpart, List.reverse_cons,
        ← List.append_cons]
    | false =>
      refine ⟨wordsFrom none (i + 1) text, ?_⟩
      simp [wordsFrom, hpart]

theorem le_start_of_mem_wordsFrom {o : Option Word} {i k : Nat} {text : List Char}
    (ho : ∀ w ∈ o, k ≤ w.start) (hi : k ≤ i) : ∀ w ∈ wordsFrom o i text, k ≤ w.start := by
  fun_induction wordsFrom o i text with
  | case1 o i =>
    intro w hw
    obtain ⟨v, hv, rfl⟩ := Option.map_eq_some_iff.mp (Option.mem_toList.mp hw)
    exact ho v hv
  | case2 i c rest v hpart ih => exact ih (fun u hu => by cases hu; exact ho v rfl) (by omega)
  | case3 i c rest v hpart ih =>
    intro w hw
    rcases List.mem_cons.mp hw with rfl | hw
    · exact ho v rfl
    · exact ih (fun u hu => by cases hu) (by omega) w hw
  | case4 i c rest hstart ih => exact ih (fun u hu => by cases hu; exact hi) (by omega)
  | case5 i c rest hstart ih => exact ih ho (by omega)

theorem touches_iff {w : Word} {i : Nat} :
    Span.touches ⟨w.start, w.start + w.text.length⟩ i = true ↔
      w.start ≤ i ∧ i ≤ w.start + w.text.length := by
  simp only [Span.touches, Bool.and_eq_true, decide_eq_true_eq]
  omega

theorem text_of_wordAt? {before after : List Char} {w : Word}
    (h : wordAt? (before ++ after) before.length = some w) :
    w.text = lastWord before ++ after.takeWhile isWordPart ∧ isWord w.text = true := by
  obtain ⟨closed, o, hwords, hopened, hclosed⟩ := exists_words_append before after
  have hover : closed.find? (fun w => Span.touches ⟨w.start, w.start + w.text.length⟩ before.length) =
      none := by
    rw [List.find?_eq_none]
    intro v hv htouches
    exact Nat.not_lt.mpr (touches_iff.mp htouches).2 (hclosed v hv)
  unfold wordAt? at h
  rw [hwords, List.find?_append, hover, Option.none_or] at h
  have hafter : ∀ c ∈ after.takeWhile isWordPart, isWordPart c = true :=
    fun c hc => List.mem_takeWhile_imp hc
  cases hopened with
  | @some v htext hne hstop =>
    obtain ⟨rest, hrest⟩ := exists_wordsFrom_some v before.length after
    rw [hrest, List.find?_cons_of_pos] at h
    · cases h
      dsimp only
      rw [htext]
      exact ⟨rfl, isWord_append (isWord_lastWord hne) hafter⟩
    · refine touches_iff.mpr ⟨Nat.le.intro hstop, ?_⟩
      dsimp only
      rw [List.length_append, List.length_reverse]
      omega
  | none hnone =>
    -- Only a word that begins right here can still touch the place.
    rw [hnone, List.nil_append]
    cases after with
    | nil => cases h
    | cons c after =>
      rw [wordsFrom] at h
      split at h
      · next hstart =>
        obtain ⟨rest, hrest⟩ := exists_wordsFrom_some ⟨before.length, [c]⟩ (before.length + 1) after
        rw [hrest, List.find?_cons_of_pos] at h
        · cases h
          rw [List.takeWhile_cons_of_pos (isWordPart_of_isWordStart hstart)] at hafter ⊢
          refine ⟨rfl, isWord_append (t := [c]) (by simp [isWord, hstart]) ?_⟩
          exact fun d hd => hafter d (List.mem_cons_of_mem c hd)
        · exact touches_iff.mpr ⟨Nat.le_refl _, Nat.le_add_right _ _⟩
      · have hmem := List.mem_of_find?_eq_some h
        have hstart := le_start_of_mem_wordsFrom (fun u hu => by cases hu) (Nat.le_refl _) w hmem
        have hfound := List.find?_some h
        have htouches := touches_iff.mp hfound
        omega

end Checker

namespace Token

theorem isWordPart_of_checker {c : Char} (h : Checker.isWordPart c = true) : isWordPart c = true := by
  by_cases hascii : c.toNat < 128
  · have hc := Text.of_ascii (p := fun c => !Checker.isWordPart c || isWordPart c) (by decide) hascii
    simpa [h] using hc
  · simp [isWordPart, isWordStart, Nat.le_of_not_lt hascii]

theorem isWordPart_of_quote {c : Char} (h : c.toNat = 34 ∨ c.toNat = 39 ∨ c.toNat = 96) :
    isWordPart c = false := by
  rw [← Char.ofNat_toNat c]
  rcases h with h | h | h
  · rw [h]; decide
  · rw [h]; decide
  · rw [h]; decide

theorem not_checker_part {c : Char} (h : isWordPart c = false) : Checker.isWordPart c = false :=
  Bool.eq_false_iff.mpr fun hc => Bool.eq_false_iff.mp h (isWordPart_of_checker hc)

def Apart (text : List Char) : Prop := ∀ c ∈ text.getLast?, isWordPart c = false

theorem Apart.lastWord {text : List Char} (h : Apart text) : Checker.lastWord text = [] := by
  rcases List.eq_nil_or_concat' text with rfl | ⟨done, c, rfl⟩
  · rfl
  · exact Checker.lastWord_of_not_part (not_checker_part (h c List.getLast?_concat))

theorem apart_concat {text : List Char} {c : Char} (h : isWordPart c = false) : Apart (text ++ [c]) := by
  intro d hd
  rw [List.getLast?_concat] at hd
  cases hd
  exact h

/-- How an identifier begins: with a number sign, or as a word apart from what stands before it. -/
def Begins (before t : List Char) : Prop :=
  ∃ c rest, t = c :: rest ∧ (c = '#' ∨ isWordStart c = true ∧ Apart before)

theorem Begins.concat {before t : List Char} (h : Begins before t) (c : Char) :
    Begins before (t ++ [c]) := by
  obtain ⟨b, rest, rfl, hb⟩ := h
  exact ⟨b, rest ++ [c], rfl, hb⟩

/-- What is known about the text read so far and the character that comes next: code is only gone
back to behind a character that no word holds. -/
def Kept (done : List Char) (next : Option Char) (s : State) : Prop :=
  match s.mode with
  | .code => Apart done
  | .quoted quote _ => isWordPart quote = false
  | .codeOpening => next = some '\x7b'
  | .word start chars =>
    ∃ before, done = before ++ chars.reverse ∧ before.length = start ∧ Begins before chars.reverse
  | _ => True

/-- Reading code keeps what is known, if a word part is only met where the text is apart: after a word
or a number only a number sign begins a new word. -/
theorem kept_readCode {done : List Char} {c : Char} (h : isWordPart c = true → Apart done) (s : State)
    (next : Option Char) : Kept (done ++ [c]) next (s.readCode done.length c next) := by
  unfold State.readCode
  dsimp only
  split
  · next hblank =>
    have hc := Text.of_ascii (p := fun c => !Text.isWhiteSpace c || !isWordPart c) (by decide) hblank.1
    exact apart_concat (by simpa [hblank.2] using hc)
  split
  · trivial
  split
  · trivial
  split
  · next hquote => exact isWordPart_of_quote (by omega)
  split
  · trivial
  split
  · trivial
  next hdigit =>
  split
  · next hword =>
    refine ⟨done, rfl, rfl, c, [], rfl, ?_⟩
    rcases Bool.or_eq_true_iff.mp hword with hstart | hsign
    · refine Or.inr ⟨hstart, h ?_⟩
      rw [isWordPart, hstart, Bool.true_or]
    · exact Or.inl (eq_of_beq (Bool.and_eq_true_iff.mp hsign).1)
  next hword =>
  have hpart : isWordPart c = false := by
    simp only [Bool.or_eq_true, not_or, Bool.not_eq_true] at hword hdigit
    rw [isWordPart, hword.1, hdigit, Bool.or_self]
  split
  · unfold State.openBrace
    split <;> exact apart_concat hpart
  split
  · unfold State.closeBrace
    split
    · exact apart_concat hpart
    · trivial
    · exact apart_concat hpart
  · exact apart_concat hpart

theorem kept_read {done : List Char} {s : State} {c : Char} (h : Kept done (some c) s)
    (next : Option Char) : Kept (done ++ [c]) next (s.read done.length c next).1 := by
  unfold Kept at h
  unfold State.read
  cases hmode : s.mode with
  | code =>
    rw [hmode] at h
    exact kept_readCode (fun _ => h) s next
  | lineComment =>
    dsimp only [Kept]
    by_cases hc : c = '\n'
    · rw [if_pos hc, hc]
      exact apart_concat (by decide)
    · rw [if_neg hc]
      trivial
  | blockOpening => trivial
  | blockComment star =>
    dsimp only [Kept]
    cases hends : star && c == '/' with
    | true =>
      rw [eq_of_beq (Bool.and_eq_true_iff.mp hends).2]
      exact apart_concat (by decide)
    | false => trivial
  | quoted quote escaped =>
    rw [hmode] at h
    cases escaped with
    | true => exact h
    | false =>
      dsimp only [Kept]
      by_cases hc : c = quote
      · rw [if_pos hc, hc]
        exact apart_concat h
      · rw [if_neg hc]
        exact h
  | template escaped =>
    cases escaped with
    | true => trivial
    | false =>
      dsimp only [Kept]
      by_cases hends : c.toNat = 96
      · rw [if_pos hends]
        exact apart_concat (isWordPart_of_quote (by omega))
      · rw [if_neg hends]
        by_cases hopens : c = '$' ∧ next = some '\x7b'
        · rw [if_pos hopens]
          exact hopens.2
        · rw [if_neg hopens]
          trivial
  | codeOpening =>
    rw [hmode] at h
    rw [Option.some.inj h]
    exact apart_concat (by decide)
  | number =>
    dsimp only
    split
    · unfold Kept
      rw [hmode]
      trivial
    · next hnumber =>
      refine kept_readCode (fun hpart => ?_) s next
      exact absurd (by rw [isNumberPart, hpart, Bool.true_or]) hnumber
  | word start chars =>
    rw [hmode] at h
    dsimp only
    split
    · next hpart =>
      obtain ⟨before, rfl, hlength, hbegins⟩ := h
      refine ⟨before, ?_, hlength, ?_⟩
      · rw [List.reverse_cons, List.append_assoc]
      · rw [List.reverse_cons]
        exact hbegins.concat c
    · next hpart => exact kept_readCode (fun hc => absurd hc hpart) _ next

def Occurs (text : List Char) (x : Identifier) : Prop :=
  ∃ before after : List Char, text = before ++ x.text ++ after ∧ x.span.start = before.length ∧
    Begins before x.text ∧ ∀ c ∈ after.head?, isWordPart c = false

theorem occurs_of_kept {done rest : List Char} {s : State} {start : Nat} {chars : List Char}
    (h : Kept done rest.head? s) (hmode : s.mode = .word start chars)
    (hends : ∀ c ∈ rest.head?, isWordPart c = false) {afterPoint : Bool} {x : Identifier}
    (hx : wordIdentifier? afterPoint start chars = some x) : Occurs (done ++ rest) x := by
  unfold Kept at h
  rw [hmode] at h
  obtain ⟨before, rfl, rfl, hbegins⟩ := h
  unfold wordIdentifier? at hx
  dsimp only at hx
  split at hx
  · cases hx
    exact ⟨before, rest, rfl, rfl, hbegins, hends⟩
  · cases hx

theorem ends_of_read {s : State} {i : Nat} {c : Char} {next : Option Char} {x : Identifier}
    (h : (s.read i c next).2 = some x) : isWordPart c = false := by
  obtain ⟨start, chars, hmode, -⟩ := found_of_read h
  unfold State.read at h
  rw [hmode] at h
  dsimp only at h
  split at h
  · cases h
  · next hpart => exact Bool.eq_false_iff.mpr hpart

theorem occurs_of_mem_scan {done rest : List Char} {s : State} (h : Kept done rest.head? s) :
    ∀ x ∈ scan s done.length rest, Occurs (done ++ rest) x := by
  induction rest generalizing done s with
  | nil =>
    intro x hx
    unfold scan at hx
    split at hx
    · next start chars hmode =>
      exact occurs_of_kept h hmode (fun c hc => by cases hc) (Option.mem_toList.mp hx)
    · exact absurd hx List.not_mem_nil
  | cons c rest ih =>
    intro x hx
    simp only [scan] at hx
    rcases List.mem_append.mp hx with hx | hx
    · have hread := Option.mem_toList.mp hx
      obtain ⟨start, chars, hmode, hfound⟩ := found_of_read hread
      refine occurs_of_kept h hmode ?_ hfound
      rintro d ⟨⟩
      exact ends_of_read hread
    · have hnext := @ih (done ++ [c]) _ (kept_read h rest.head?)
      rw [List.length_append, List.length_singleton] at hnext
      rw [List.append_cons]
      exact hnext x hx

theorem occurs_of_mem_identifiers {content : List Char} :
    ∀ x ∈ identifiers content, Occurs content x :=
  @occurs_of_mem_scan [] content {} fun c hc => by cases hc

end Token

/-- The word that a checker reads where an identifier of a text starts: as much of the identifier as
is a word, but the word that stands before it if the identifier starts with a number sign. -/
structure Checker.Reads (text target word : List Char) : Prop where
  isWord : isWord word = true
  leading : target.head? ≠ some '#' → word = target.takeWhile isWordPart
  before : target.head? = some '#' →
    ∃ before after, text = before ++ target ++ after ∧ word = lastWord before

/-- The identifier is read exactly if it is a word. -/
theorem Checker.Reads.eq_iff {text target word : List Char} (h : Reads text target word) :
    word = target ↔ Checker.isWord target = true := by
  constructor
  · rintro rfl
    exact h.isWord
  · intro hword
    have hhead : target.head? ≠ some '#' := by
      intro hsign
      obtain ⟨rest, rfl⟩ := List.head?_eq_some_iff.mp hsign
      cases hword
    rw [h.leading hhead, takeWhile_of_isWord hword]

theorem Token.reads_of_wordAt? {content : List Char} {x : Identifier} (hx : x ∈ identifiers content)
    {w : Checker.Word} (h : Checker.wordAt? content x.span.start = some w) :
    Checker.Reads content x.text w.text := by
  obtain ⟨before, after, hcontent, hstart, hbegins, hends⟩ := occurs_of_mem_identifiers x hx
  rw [hcontent, hstart, List.append_assoc] at h
  obtain ⟨htext, hword⟩ := Checker.text_of_wordAt? h
  obtain ⟨c, rest, htarget, rfl | ⟨hc, hapart⟩⟩ := hbegins
  · -- A number sign ends the word before it and begins none.
    rw [htarget] at htext hcontent ⊢
    refine ⟨hword, fun hne => absurd rfl hne, fun _ => ⟨before, after, hcontent, ?_⟩⟩
    rw [htext, List.cons_append, List.takeWhile_cons_of_neg (by decide), List.append_nil]
  · have htake : (x.text ++ after).takeWhile Checker.isWordPart =
        x.text.takeWhile Checker.isWordPart :=
      Text.takeWhile_append_of_head? fun d hd => not_checker_part (hends d hd)
    refine ⟨hword, fun _ => ?_, ?_⟩
    · rw [htext, hapart.lastWord, htake, List.nil_append]
    · intro hsign
      rw [htarget] at hsign
      cases hsign
      cases hc

/-- The information that a hover or a highlight gives. -/
def Note.told? (n : Note) : Option Info :=
  match n.body with
  | .hover info => some info
  | .highlight info _ => some info
  | _ => none

theorem Note.told?_congr {m n : Note} (h : m.body = n.body) : m.told? = n.told? := by
  unfold told?
  rw [h]

theorem Answered.exists_of_told {job : Job} {plan : Plan} {p : Except Failure Checker} {s : Section}
    {xs : List Identifier} {found : List Note} (h : noted job plan p (s, xs) = .ok found) {n : Note}
    (hn : n ∈ found) {info : Info} (hinfo : n.told? = some info) :
    ∃ c, p = .ok c ∧ ∃ x ∈ xs, ∃ known,
      c.infoIn s.content (x.span.start - s.offset) = some known ∧ info = Work.infoOf x.text known := by
  obtain ⟨c, rfl, h⟩ := Outcome.bind_eq_ok.mp h
  obtain ⟨hs, qs, ms, cs, hhovers, hqueries, hhighlights, hcompletions, rfl⟩ := notes_ok h
  refine ⟨c, rfl, ?_⟩
  simp only [List.mem_append] at hn
  rcases hn with hn | hn | hn | hn
  · obtain ⟨x, known, ⟨hx, hknown⟩, rfl⟩ := exists_of_mem_hovers hhovers hn
    rw [Checker.infoAt_create_self] at hknown
    exact ⟨x, hx, known, Except.ok.inj hknown, (Option.some.inj hinfo).symm⟩
  · obtain ⟨_, _, _, -, -, -, rfl⟩ := exists_of_mem_queries hqueries hn
    cases hinfo
  · obtain ⟨_, x, known, ⟨hx, hknown⟩, rfl⟩ := exists_of_mem_highlights hhighlights hn
    rw [Checker.infoAt_create_self] at hknown
    exact ⟨x, hx, known, Except.ok.inj hknown, (Option.some.inj hinfo).symm⟩
  · obtain ⟨_, _, -, -, rfl⟩ := exists_of_mem_completions hcompletions hn
    cases hinfo

namespace Annotator

theorem exists_noted_of_told {a : Annotator} {q : Request} {w : World} {r : Result}
    (h : (a.annotate q w).1 = .ok r)
    (hemit : r.plan.behaviour.showEmit = false) {n : Note} (hn : n ∈ r.notes) {info : Info}
    (hinfo : n.told? = some info) :
    ∃ plan removals, r.plan = { plan with removals } ∧ ∃ y ∈ plan.identified w.trees, ∃ found,
      Answered.noted (a.job q) plan (w.serving a.slot a.script plan.options) y = .ok found ∧
      ∃ m ∈ found, m.told? = some info := by
  obtain ⟨plan, notes, hcollected, hending⟩ := exists_collected h
  obtain ⟨tags, found, errors, hreading, hpopulated, hdiagnosed, rfl⟩ := collected_ok hcollected
  rw [Answered.behaviour_of_ending hending] at hemit
  obtain ⟨parts, hparts, rfl⟩ := Answered.populated_ok hemit hpopulated
  obtain ⟨removals, hplan⟩ := Answered.plan_of_ending hending hemit
  obtain ⟨-, m, hm, -, rfl⟩ := Answered.exists_of_mem_notes hending hn
  have htold : m.told? = some info := by
    rw [← hinfo]
    exact (Note.told?_congr (plan.body_moved m)).symm
  have hmem : m ∈ parts.flatten := by
    rcases List.mem_append.mp hm with hm | hm
    · rcases List.mem_append.mp (List.mem_filter.mp hm).1 with hm | hm
      · obtain ⟨_, _, hbody⟩ := body_of_mem_tags hreading hm
        rw [Note.told?, hbody] at htold
        cases htold
      · exact hm
    · obtain ⟨_, _, _, _, _, hbody⟩ := Answered.body_of_mem_errors hdiagnosed hm
      rw [Note.told?, hbody] at htold
      cases htold
  obtain ⟨part, hpart, hmem⟩ := List.mem_flatten.mp hmem
  obtain ⟨y, hy, hnoted⟩ := Outcome.exists_of_mem_mapM hparts hpart
  exact ⟨plan, removals, hplan, y, hy, part, hnoted, m, hmem, htold⟩

/-- The text and the documentation of every hover and every highlight are those that the checker has
under the word that it reads where the target starts.  This word is the target exactly if the target
is a word. -/
theorem told_of_word (a : Annotator) (q : Request) (w : World) (r : Result)
    (h : (a.annotate q w).1 = .ok r)
    (hemit : r.plan.behaviour.showEmit = false) (htrees : w.trees = none) :
    ∀ n ∈ r.notes, ∀ info, n.told? = some info →
      ∃ c s word known, w.serving a.slot a.script r.plan.options = .ok c ∧ s ∈ r.plan.taken ∧
        Checker.Reads s.content info.target.toList word ∧
        (String.ofList word = info.target ↔ Checker.isWord info.target.toList = true) ∧
        c.quickInfo.lookup (String.ofList word) = some known ∧
        info.text = known.text ∧ info.docs = known.docs := by
  intro n hn info hinfo
  obtain ⟨plan, removals, hplan, ⟨s, xs⟩, hs, found, hnoted, m, hm, htold⟩ :=
    exists_noted_of_told h hemit hn hinfo
  obtain ⟨c, hserving, x, hx, known, hknown, rfl⟩ := Answered.exists_of_told hnoted hm htold
  have htaken : s ∈ plan.taken := by
    rw [← plan.map_fst_readAll w.trees plan.taken]
    exact List.mem_map_of_mem hs
  rw [htrees] at hs
  obtain ⟨z, hz, rfl⟩ := Plan.exists_token_of_mem_readAll plan.taken (s, xs) hs x hx
  have hoffset : (z.shift s.offset).span.start - s.offset = z.span.start := by
    simp [Identifier.shift]
  rw [hoffset] at hknown
  obtain ⟨word, hword, hlookup⟩ := Option.bind_eq_some_iff.mp hknown
  have hreads := Token.reads_of_wordAt? hz hword
  have htext : (Work.infoOf (z.shift s.offset).text known).target.toList = z.text :=
    String.toList_ofList
  refine ⟨c, s, word.text, known, ?_, ?_, ?_, ?_, hlookup, rfl, rfl⟩
  · rw [hplan]
    exact hserving
  · rw [hplan]
    exact htaken
  · rw [htext]
    exact hreads
  · rw [htext, ← hreads.eq_iff]
    exact String.ofList_inj

/-- Of two known identifiers the first is a word.  The second, which is also pointed at, has an accent
of its own that the checker does not read. -/
theorem told_of_word_example :
    let a : Annotator :=
      { script := { quickInfo := [("x", .str "let x"), ("aé", .str "let aé")] }, declarations := [] }
    let q : Request := { code := "aé = x\u0301\n//   ^^\n".toList }
    ∃ r, (a.annotate q {}).1 = .ok r ∧
      r.plan.behaviour.showEmit = false ∧ ({} : World).trees = none ∧
      r.notes.filterMap Note.told? = [⟨"let aé", none, "aé"⟩, ⟨"let x", none, "x\u0301"⟩,
        ⟨"let x", none, "x\u0301"⟩] ∧
      ∀ n ∈ r.notes, ∀ info, n.told? = some info →
        ∃ c s word known, ({} : World).serving a.slot a.script r.plan.options = .ok c ∧
          s ∈ r.plan.taken ∧ Checker.Reads s.content info.target.toList word ∧
          (String.ofList word = info.target ↔ Checker.isWord info.target.toList = true) ∧
          c.quickInfo.lookup (String.ofList word) = some known ∧
          info.text = known.text ∧ info.docs = known.docs := by
  intro a q
  have hrun : ((a.annotate q {}).1.toOption.map fun r =>
      (r.plan.behaviour.showEmit, r.notes.filterMap Note.told?)) =
        some (false, [⟨"let aé", none, "aé"⟩, ⟨"let x", none, "x\u0301"⟩,
          ⟨"let x", none, "x\u0301"⟩]) := by
    decide +kernel
  obtain ⟨r, hr, hvalues⟩ := Outcome.exists_ok_of_toOption_map hrun
  obtain ⟨hemit, htold⟩ := Prod.mk.inj hvalues
  exact ⟨r, hr, hemit, rfl, htold, told_of_word a q {} r hr hemit rfl⟩

/-- The checker knows nothing under the target, but the hover tells what it knows under the letter
without the accent. -/
theorem told_of_target_counterexample :
    let a : Annotator := { script := { quickInfo := [("x", .str "let x")] }, declarations := [] }
    let q : Request := { code := "x\u0301 = 1\n".toList }
    ∃ r c, (a.annotate q {}).1 = .ok r ∧ r.plan.behaviour.showEmit = false ∧
      ({} : World).serving a.slot a.script r.plan.options = .ok c ∧
      r.notes.map Note.body = [.hover ⟨"let x", none, "x\u0301"⟩] ∧
      c.quickInfo.lookup "x\u0301" = none := by
  intro a q
  have hrun : ((a.annotate q {}).1.toOption.map fun r =>
      (r.plan.behaviour.showEmit, r.notes.map Note.body,
        (({} : World).serving a.slot a.script r.plan.options).toOption.map fun c =>
          c.quickInfo.lookup "x\u0301")) =
        some (false, [.hover ⟨"let x", none, "x\u0301"⟩], some none) := by
    decide +kernel
  obtain ⟨r, hr, hvalues⟩ := Outcome.exists_ok_of_toOption_map hrun
  simp only [Prod.mk.injEq] at hvalues
  obtain ⟨hemit, hnotes, hserves⟩ := hvalues
  obtain ⟨c, hserving, hunknown⟩ := Outcome.exists_ok_of_toOption_map hserves
  exact ⟨r, c, hr, hemit, hserving, hnotes, hunknown⟩

end Annotator

end Marginalia
