import Marginalia.Identifier.Token
import Marginalia.Identifier.Tree
import Marginalia.Section
import Marginalia.World
import Marginalia.Proofs.Outcome

/-!
# Identifiers stand where they are spelled

Whether identifiers are read off a syntax tree or found by tokens, the span of each holds its
spelling.  For trees this needs their byte offsets to lie within the encoding of the text.
-/

namespace Marginalia
set_option autoImplicit false

/-- The span lies in the text and holds the spelling. -/
def Identifier.StandsIn (text : List Char) (x : Identifier) : Prop :=
  ∃ start : Nat, x.span = ⟨start, start + x.text.length⟩ ∧ start + x.text.length ≤ text.length ∧
    (text.drop start).take x.text.length = x.text

namespace Token

/-- The word being read is the end of what has been read. -/
def Reading (done : List Char) (s : State) : Prop :=
  ∀ start chars, s.mode = .word start chars →
    start + chars.length = done.length ∧ done.drop start = chars.reverse

theorem mode_readCode {s : State} {i : Nat} {c : Char} {next : Option Char} {start : Nat}
    {chars : List Char} (h : (s.readCode i c next).mode = .word start chars) :
    start = i ∧ chars = [c] := by
  unfold State.readCode at h
  dsimp only at h
  -- Blanks, comments, quotes, templates and digits come before the start of a word.
  iterate 6
    split at h
    · cases h
  split at h
  · cases h
    exact ⟨rfl, rfl⟩
  · split at h
    · unfold State.openBrace at h
      split at h <;> cases h
    · split at h
      · unfold State.closeBrace at h
        split at h <;> cases h
      · cases h

theorem reading_readCode (done : List Char) (s : State) (c : Char) (next : Option Char) :
    Reading (done ++ [c]) (s.readCode done.length c next) := by
  intro start chars h
  obtain ⟨rfl, rfl⟩ := mode_readCode h
  simp

theorem reading_read {done : List Char} {s : State} (h : Reading done s) (c : Char)
    (next : Option Char) : Reading (done ++ [c]) (s.read done.length c next).1 := by
  unfold State.read
  cases hmode : s.mode with
  | code => exact reading_readCode done s c next
  | lineComment => intro start chars hw; dsimp only at hw; split at hw <;> cases hw
  | blockOpening => intro start chars hw; cases hw
  | blockComment star => intro start chars hw; dsimp only at hw; split at hw <;> cases hw
  | quoted quote escaped =>
    intro start chars hw
    cases escaped
    · dsimp only at hw
      split at hw <;> cases hw
    · cases hw
  | template escaped =>
    intro start chars hw
    cases escaped
    · dsimp only at hw
      split at hw
      · cases hw
      · split at hw <;> cases hw
    · cases hw
  | codeOpening => intro start chars hw; cases hw
  | number =>
    dsimp only
    split
    · intro start chars hw
      rw [hmode] at hw
      cases hw
    · exact reading_readCode done s c next
  | word start chars =>
    dsimp only
    split
    · intro start' chars' hw
      cases hw
      obtain ⟨hlen, hdrop⟩ := h start chars hmode
      refine ⟨by simp only [List.length_cons, List.length_append, List.length_nil]; omega, ?_⟩
      rw [List.drop_append_of_le_length (by omega), hdrop, List.reverse_cons]
    · exact reading_readCode done _ c next

theorem standsIn_of_reading {done rest : List Char} {s : State} (h : Reading done s) {start : Nat}
    {chars : List Char} (hmode : s.mode = .word start chars) {afterPoint : Bool} {x : Identifier}
    (hx : wordIdentifier? afterPoint start chars = some x) : x.StandsIn (done ++ rest) := by
  obtain ⟨hlen, hdrop⟩ := h start chars hmode
  unfold wordIdentifier? at hx
  dsimp only at hx
  split at hx
  · rw [← Option.some.inj hx]
    refine ⟨start, rfl, ?_, ?_⟩
    · simp only [List.length_reverse, List.length_append]
      omega
    · rw [List.drop_append_of_le_length (by omega), hdrop, List.take_left]
  · cases hx

theorem found_of_read {s : State} {i : Nat} {c : Char} {next : Option Char} {x : Identifier}
    (h : (s.read i c next).2 = some x) :
    ∃ start chars, s.mode = .word start chars ∧
      wordIdentifier? s.afterPoint start chars = some x := by
  unfold State.read at h
  cases hmode : s.mode with
  | word start chars =>
    rw [hmode] at h
    dsimp only at h
    split at h
    · cases h
    · exact ⟨start, chars, rfl, h⟩
  | quoted quote escaped => rw [hmode] at h; cases escaped <;> cases h
  | template escaped => rw [hmode] at h; cases escaped <;> cases h
  | _ => rw [hmode] at h; cases h

theorem standsIn_of_mem_scan {done rest : List Char} {s : State} (h : Reading done s) :
    ∀ x ∈ scan s done.length rest, x.StandsIn (done ++ rest) := by
  -- Reading goes on from a prefix that is done, so the text is general in the induction.
  induction rest generalizing done s with
  | nil =>
    intro x hx
    unfold scan at hx
    split at hx
    · next start chars hmode =>
      exact standsIn_of_reading h hmode (Option.mem_toList.mp hx)
    · exact absurd hx List.not_mem_nil
  | cons c rest ih =>
    intro x hx
    simp only [scan] at hx
    rcases List.mem_append.mp hx with hx | hx
    · obtain ⟨start, chars, hmode, hfound⟩ := found_of_read (Option.mem_toList.mp hx)
      exact standsIn_of_reading h hmode hfound
    · have hnext := @ih (done ++ [c]) _ (reading_read h c rest.head?)
      rw [List.length_append, List.length_singleton] at hnext
      rw [List.append_cons]
      exact hnext x hx

theorem standsIn_of_mem_identifiers {content : List Char} :
    ∀ x ∈ identifiers content, x.StandsIn content :=
  @standsIn_of_mem_scan [] content {} fun start chars hw => by cases hw

end Token

namespace Identifier

theorem byteCount_of_ascii {content : List Char} (h : ∀ c ∈ content, c.toNat < 128) :
    byteCount content = content.length := by
  induction content with
  | nil => rfl
  | cons c rest ih =>
    have hc := h c List.mem_cons_self
    have hsize : c.utf8Size = 1 := by
      unfold Char.utf8Size
      rw [if_pos]
      exact UInt32.le_iff_toNat_le.mpr (Nat.le_of_lt_succ hc)
    rw [byteCount, hsize, ih fun c' hc' => h c' (List.mem_cons_of_mem c hc'), List.length_cons]
    omega

theorem charIndexFrom?_le {i byte j : Nat} {content : List Char}
    (h : charIndexFrom? i byte content = some j) : j ≤ i + content.length := by
  induction content generalizing i byte with
  | nil =>
    simp only [charIndexFrom?] at h
    split at h
    · cases h
      exact Nat.le_refl _
    · cases h
  | cons c rest ih =>
    simp only [charIndexFrom?] at h
    rw [List.length_cons]
    split at h
    · cases h
      omega
    · have := ih h
      omega

theorem charIndex_bounds {content : List Char} {byte i : Int} (h0 : 0 ≤ byte)
    (hle : byte ≤ byteCount content) (h : charIndex content byte = .ok i) :
    0 ≤ i ∧ i ≤ content.length := by
  unfold charIndex at h
  split at h
  · next hascii =>
    have hcount := byteCount_of_ascii (by simpa using hascii)
    cases h
    omega
  · rw [if_neg (Int.not_lt.mpr h0)] at h
    split at h
    · cases h
    · dsimp only at h
      rw [if_neg (Int.not_lt.mpr h0)] at h
      split at h
      · next j hj =>
        cases h
        have := charIndexFrom?_le hj
        omega
      · cases h

theorem standsIn_of_mem_atBytes {content : List Char} {first last : Int} {xs : List Identifier}
    (hfirst : 0 ≤ first ∧ first ≤ byteCount content) (hlast : 0 ≤ last ∧ last ≤ byteCount content)
    (h : atBytes content first last = .ok xs) : ∀ x ∈ xs, x.StandsIn content := by
  unfold atBytes at h
  obtain ⟨start, hstart, h⟩ := Outcome.bind_eq_ok.mp h
  obtain ⟨stop, hstop, rfl⟩ := Outcome.map_eq_ok.mp h
  obtain ⟨hs0, hs1⟩ := charIndex_bounds hfirst.1 hfirst.2 hstart
  obtain ⟨he0, he1⟩ := charIndex_bounds hlast.1 hlast.2 hstop
  intro x hx
  split at hx
  · next hlt =>
    rw [List.mem_singleton.mp hx]
    obtain ⟨a, rfl⟩ := Int.eq_ofNat_of_zero_le hs0
    obtain ⟨b, rfl⟩ := Int.eq_ofNat_of_zero_le he0
    have hab : a < b := Int.ofNat_lt.mp hlt
    have hlen : (Text.between content a b).length = b - a := by
      rw [Text.between_of_nonneg hs0 he0, List.length_drop, List.length_take]
      simp only [Int.toNat_natCast]
      omega
    refine ⟨a, ?_, ?_, ?_⟩
    · simp only [hlen, Span.mk.injEq, true_and]
      omega
    · simp only [hlen]
      omega
    · simp only [hlen]
      rw [Text.between_of_nonneg hs0 he0, List.drop_take]
      simp
  · exact absurd hx List.not_mem_nil

theorem StandsIn.shift {content code : List Char} {offset : Nat} {x : Identifier}
    (h : x.StandsIn content) (hcontent : (code.drop offset).take content.length = content)
    (hlen : offset + content.length ≤ code.length) : (x.shift offset).StandsIn code := by
  obtain ⟨start, hspan, hle, htext⟩ := h
  refine ⟨offset + start, ?_, ?_, ?_⟩
  · simp only [Identifier.shift, hspan, Span.mk.injEq]
    omega
  · simp only [Identifier.shift]
    omega
  · simp only [Identifier.shift]
    rw [← hcontent, List.drop_take, List.drop_drop, List.take_take, Nat.min_eq_left (by omega)] at htext
    exact htext

end Identifier

/-! ## Going through a tree -/

namespace Tree

mutual

/-- The topmost identifiers of a tree by recursion on it, or the first fault of their offsets. -/
def preorder (content : List Char) : Tree → Except OffsetFault (List Identifier)
  | node kind first last children =>
    if identifierKinds.contains kind then Identifier.atBytes content first last
    else preorderOfAll content children

def preorderOfAll (content : List Char) : List Tree → Except OffsetFault (List Identifier)
  | [] => .ok []
  | t :: rest =>
    match preorder content t with
    | .error e => .error e
    | .ok xs => (preorderOfAll content rest).map fun ys => xs ++ ys

end

mutual

/-- A tree that comes off the stack has added its identifiers when the rest of the stack is next. -/
theorem walk_cons (content : List Char) (t : Tree) (rest : List Tree) (found : List Identifier) :
    walk content (t :: rest) found =
      (t.preorder content).bind fun xs => walk content rest (found ++ xs) := by
  cases t with
  | node kind first last children =>
    rw [walk, preorder]
    split
    · cases Identifier.atBytes content first last <;> rfl
    · rw [push_eq]
      exact walk_append content children rest found

theorem walk_append (content : List Char) (ts rest : List Tree) (found : List Identifier) :
    walk content (ts ++ rest) found =
      (preorderOfAll content ts).bind fun xs => walk content rest (found ++ xs) := by
  cases ts with
  | nil =>
    unfold preorderOfAll
    rw [List.nil_append, Except.bind, List.append_nil]
  | cons t ts =>
    unfold preorderOfAll
    rw [List.cons_append, walk_cons content t]
    cases preorder content t with
    | error e => rfl
    | ok xs =>
      dsimp only [Except.bind]
      rw [walk_append content ts]
      cases preorderOfAll content ts with
      | error e => rfl
      | ok ys =>
        dsimp only [Except.bind, Except.map]
        rw [List.append_assoc]

end

/-- The loop over the stack finds what the recursion finds. -/
theorem identifiers_eq_preorder (content : List Char) (t : Tree) :
    t.identifiers content = t.preorder content := by
  unfold identifiers
  rw [walk_cons]
  cases t.preorder content with
  | error e => rfl
  | ok xs =>
    dsimp only [Except.bind]
    unfold walk
    rfl

mutual

/-- The byte offsets of all nodes lie within the encoding of the text. -/
def Within (content : List Char) : Tree → Prop
  | node _ first last children =>
    (0 ≤ first ∧ first ≤ Identifier.byteCount content) ∧
      (0 ≤ last ∧ last ≤ Identifier.byteCount content) ∧ AllWithin content children

def AllWithin (content : List Char) : List Tree → Prop
  | [] => True
  | t :: rest => t.Within content ∧ AllWithin content rest

end

mutual

theorem standsIn_of_mem_preorder {content : List Char} {t : Tree} {xs : List Identifier}
    (ht : t.Within content) (h : t.preorder content = .ok xs) :
    ∀ x ∈ xs, x.StandsIn content := by
  cases t with
  | node kind first last children =>
    simp only [Within] at ht
    simp only [preorder] at h
    split at h
    · exact Identifier.standsIn_of_mem_atBytes ht.1 ht.2.1 h
    · exact standsIn_of_mem_preorderOfAll ht.2.2 h

theorem standsIn_of_mem_preorderOfAll {content : List Char} {ts : List Tree}
    {xs : List Identifier} (hts : AllWithin content ts) (h : preorderOfAll content ts = .ok xs) :
    ∀ x ∈ xs, x.StandsIn content := by
  cases ts with
  | nil =>
    simp only [preorderOfAll] at h
    cases h
    simp
  | cons t rest =>
    simp only [AllWithin] at hts
    simp only [preorderOfAll] at h
    split at h
    · cases h
    · next found hfound =>
      obtain ⟨more, hmore, rfl⟩ := Outcome.map_eq_ok.mp h
      intro x hx
      rcases List.mem_append.mp hx with hx | hx
      · exact standsIn_of_mem_preorder hts.1 hfound x hx
      · exact standsIn_of_mem_preorderOfAll hts.2 hmore x hx

end

end Tree

end Marginalia
