import Mathlib
import Marginalia.Cache
import Marginalia.Decode.Primitive
import Marginalia.Proofs.Number.Written
import Marginalia.Proofs.Value.Quoted

/-!
# Reading canonical texts

The canonical text of a map shows the text of the value under each key.  To see where a value ends, a
reader that goes through the text from the left needs to know only in how many brackets it is and
whether it is in quotes.
-/

namespace Marginalia
set_option autoImplicit false

namespace Value

/-! ## Where a value ends -/

/-- Where a reader stands: outside of quotes, inside of them, or behind a backslash, and in how many
brackets. -/
inductive Place where
  | plain (depth : Nat)
  | quoted (depth : Nat)
  | escaped (depth : Nat)

/-- The next place.  A comma outside of all brackets and a bracket that was not opened end the
value. -/
def Place.step : Place → Char → Option Place
  | .plain depth, c =>
    if c = doubleQuote then some (.quoted depth)
    else if c = '[' ∨ c = '\x7b' then some (.plain (depth + 1))
    else if c = ']' ∨ c = '\x7d' then if depth = 0 then none else some (.plain (depth - 1))
    else if c = ',' ∧ depth = 0 then none
    else some (.plain depth)
  | .quoted depth, c =>
    if c = doubleQuote then some (.plain depth)
    else if c = '\\' then some (.escaped depth)
    else some (.quoted depth)
  | .escaped depth, _ => some (.quoted depth)

def Place.read (place : Place) (cs : List Char) : Option Place := cs.foldlM Place.step place

theorem Place.read_append {p q : Place} {cs : List Char} (h : p.read cs = some q)
    (rest : List Char) : p.read (cs ++ rest) = q.read rest := by
  unfold Place.read at h ⊢
  rw [List.foldlM_append, h]
  rfl

theorem Place.read_cons {p q : Place} {c : Char} (h : p.step c = some q) (rest : List Char) :
    p.read (c :: rest) = q.read rest := by
  unfold Place.read
  rw [List.foldlM_cons, h]
  rfl

/-- A reader comes through the text as it went in. -/
def Closed (cs : List Char) : Prop :=
  ∀ depth, (Place.plain depth).read cs = some (.plain depth)

def passed (c : Char) : Bool := !(doubleQuote :: "[]\x7b\x7d,".toList).contains c

theorem closed_of_passed {cs : List Char} (h : cs.all passed = true) : Closed cs := by
  intro depth
  induction cs with
  | nil => rfl
  | cons c cs ih =>
    rw [List.all_cons, Bool.and_eq_true_iff] at h
    obtain ⟨hc, hcs⟩ := h
    have hstep : (Place.plain depth).step c = some (.plain depth) := by
      have hne : c ≠ doubleQuote ∧ c ≠ '[' ∧ c ≠ ']' ∧ c ≠ '\x7b' ∧ c ≠ '\x7d' ∧ c ≠ ',' := by
        refine ⟨?_, ?_, ?_, ?_, ?_, ?_⟩ <;> rintro rfl <;> exact absurd hc (by decide)
      obtain ⟨hquote, hopen, hclose, hopen', hclose', hcomma⟩ := hne
      unfold Place.step
      dsimp only
      rw [if_neg hquote, if_neg (not_or.mpr ⟨hopen, hopen'⟩), if_neg (not_or.mpr ⟨hclose, hclose'⟩),
        if_neg (fun h => hcomma h.1)]
    rw [Place.read_cons hstep]
    exact ih hcs

theorem Closed.append {cs cs' : List Char} (h : Closed cs) (h' : Closed cs') :
    Closed (cs ++ cs') := by
  intro depth
  rw [Place.read_append (h depth)]
  exact h' depth

theorem read_quoted {cs : List Char} (h : ∀ c ∈ cs, c ≠ doubleQuote ∧ c ≠ '\\') (depth : Nat) :
    (Place.quoted depth).read cs = some (.quoted depth) := by
  induction cs with
  | nil => rfl
  | cons c cs ih =>
    obtain ⟨⟨hquote, hslash⟩, hcs⟩ := List.forall_mem_cons.mp h
    have hstep : (Place.quoted depth).step c = some (.quoted depth) := by
      unfold Place.step
      dsimp only
      rw [if_neg hquote, if_neg hslash]
    rw [Place.read_cons hstep]
    exact ih hcs

theorem read_unitEscape (n depth : Nat) :
    (Place.quoted depth).read (unitEscape n) = some (.quoted depth) :=
  read_quoted (fun _ => Number.mem_hexDigits) depth

theorem read_canonicalChar (c : Char) (depth : Nat) :
    (Place.quoted depth).read (canonicalChar c) = some (.quoted depth) := by
  rcases canonicalChar_cases c with ⟨e, ht, -, -⟩ | ⟨ht, hslash, hquote⟩ | ⟨-, ht⟩ | ⟨-, ht⟩ <;> rw [ht]
  · rfl
  · exact read_quoted (List.forall_mem_singleton.mpr ⟨hquote, hslash⟩) depth
  · exact read_unitEscape _ depth
  · rw [Place.read_append (read_unitEscape _ depth)]
    exact read_unitEscape _ depth

theorem closed_canonicalString (s : String) : Closed (canonicalString s) := by
  intro depth
  have hchars : ∀ cs : List Char,
      (Place.quoted depth).read (cs.flatMap canonicalChar) = some (.quoted depth) := by
    intro cs
    induction cs with
    | nil => rfl
    | cons c cs ih =>
      rw [List.flatMap_cons, Place.read_append (read_canonicalChar c depth)]
      exact ih
  have hopen : (Place.plain depth).step doubleQuote = some (.quoted depth) := rfl
  unfold canonicalString
  rw [List.cons_append, Place.read_cons hopen, Place.read_append (hchars s.toList)]
  rfl

def joinedTail : List (List Char) → List Char
  | [] => []
  | part :: parts => ',' :: ' ' :: commaJoin (part :: parts)

theorem commaJoin_cons (part : List Char) (parts : List (List Char)) :
    commaJoin (part :: parts) = part ++ joinedTail parts := by
  unfold commaJoin
  cases parts with
  | nil => simp [joinedTail]
  | cons next parts =>
    rw [List.intercalate_cons_cons, List.append_assoc]
    rfl

theorem read_commaJoin {parts : List (List Char)} (h : ∀ part ∈ parts, Closed part) (depth : Nat) :
    (Place.plain (depth + 1)).read (commaJoin parts) = some (.plain (depth + 1)) := by
  have hcomma : (Place.plain (depth + 1)).step ',' = some (.plain (depth + 1)) := rfl
  have hblank : (Place.plain (depth + 1)).step ' ' = some (.plain (depth + 1)) := rfl
  induction parts with
  | nil => rfl
  | cons part parts ih =>
    obtain ⟨hpart, hparts⟩ := List.forall_mem_cons.mp h
    rw [commaJoin_cons, Place.read_append (hpart (depth + 1))]
    cases parts with
    | nil => rfl
    | cons next parts =>
      unfold joinedTail
      rw [Place.read_cons hcomma, Place.read_cons hblank]
      exact ih hparts

theorem closed_brackets {left right : Char} {parts : List (List Char)}
    (hleft : ∀ depth, (Place.plain depth).step left = some (.plain (depth + 1)))
    (hright : ∀ depth, (Place.plain (depth + 1)).step right = some (.plain depth))
    (h : ∀ part ∈ parts, Closed part) : Closed (left :: commaJoin parts ++ [right]) := by
  intro depth
  rw [List.cons_append, Place.read_cons (hleft depth), Place.read_append (read_commaJoin h depth),
    Place.read_cons (hright depth)]
  rfl

theorem mem_toString_int {n : Int} {c : Char} (h : c ∈ (toString n).toList) :
    c.isDigit = true ∨ c = '-' := by
  have hdigits : ∀ m : Nat, c ∈ m.repr.toList → c.isDigit = true := by
    intro m hm
    rw [Nat.repr_eq_ofList_toDigits, String.toList_ofList] at hm
    exact Nat.isDigit_of_mem_toDigits (by decide) (by decide) hm
  rw [Int.toString_eq_repr, Int.repr_eq_if] at h
  split at h
  · exact Or.inl (hdigits _ h)
  · rw [String.toList_append] at h
    rcases List.mem_append.mp h with h | h
    · exact Or.inr (List.mem_singleton.mp h)
    · exact Or.inl (hdigits _ h)

theorem passed_of_numeral {c : Char} (h : Binary64.numeral c = true) : passed c = true := by
  cases hc : passed c with
  | true => rfl
  | false =>
    have hmem : c ∈ doubleQuote :: "[]\x7b\x7d,".toList := by
      unfold passed at hc
      rw [Bool.not_eq_eq_eq_not] at hc
      exact List.contains_iff_mem.mp hc
    have hother : (doubleQuote :: "[]\x7b\x7d,".toList).all (!Binary64.numeral ·) = true := by decide
    have hnot := List.all_eq_true.mp hother c hmem
    rw [h] at hnot
    cases hnot

theorem closed_of_numeral {cs : List Char} (h : ∀ c ∈ cs, Binary64.numeral c = true) : Closed cs :=
  closed_of_passed (List.all_eq_true.mpr fun c hc => passed_of_numeral (h c hc))

theorem numeral_of_mem_toString_int {n : Int} {c : Char} (h : c ∈ (toString n).toList) :
    Binary64.numeral c = true := by
  rcases mem_toString_int h with h | rfl
  · exact Binary64.numeral_of_isDigit h
  · decide

def entryText (e : String × List Char) : List Char := canonicalString e.1 ++ [':', ' '] ++ e.2

theorem closed_entryText {e : String × List Char} (h : Closed e.2) : Closed (entryText e) := by
  have hcolon : Closed [':', ' '] := closed_of_passed (by decide)
  exact ((closed_canonicalString e.1).append hcolon).append h

mutual

theorem closed_canonical : (v : Value) → Closed v.canonical
  | null => closed_of_passed (by decide)
  | bool b => by cases b <;> exact closed_of_passed (by decide)
  | int _ => closed_of_numeral fun _ => numeral_of_mem_toString_int
  | float x => closed_of_numeral x.numeral_written
  | str s => closed_canonicalString s
  | list items => closed_brackets (fun _ => rfl) (fun _ => rfl) (closed_canonicalItems items)
  | map entries => by
    refine closed_brackets (fun _ => rfl) (fun _ => rfl) ?_
    intro part hpart
    obtain ⟨e, he, rfl⟩ := List.mem_map.mp hpart
    exact closed_entryText (closed_canonicalEntries entries e ((Sorting.mem_sort_iff _ _ _).mp he))

theorem closed_canonicalItems : (items : List Value) → ∀ text ∈ canonicalItems items, Closed text
  | [] => List.forall_mem_nil _
  | v :: rest => List.forall_mem_cons.mpr ⟨closed_canonical v, closed_canonicalItems rest⟩

theorem closed_canonicalEntries : (entries : List (String × Value)) →
    ∀ e ∈ canonicalEntries entries, Closed e.2
  | [] => List.forall_mem_nil _
  | (_, v) :: rest => List.forall_mem_cons.mpr ⟨closed_canonical v, closed_canonicalEntries rest⟩

end

/-- Two closed texts are the same if the texts that they start are, and a value ends behind each. -/
theorem Closed.append_inj {cs cs' rest rest' : List Char} (h : Closed cs) (h' : Closed cs')
    (hend : ∀ c ∈ rest.head?, (Place.plain 0).step c = none)
    (hend' : ∀ c ∈ rest'.head?, (Place.plain 0).step c = none)
    (heq : cs ++ rest = cs' ++ rest') : cs = cs' ∧ rest = rest' := by
  -- What one text had more than the other would start where the value ends.
  have hnone : ∀ {cs more : List Char}, Closed cs → Closed (cs ++ more) →
      (∀ c ∈ more.head?, (Place.plain 0).step c = none) → more = [] := by
    intro cs more hcs hmore hstop
    cases more with
    | nil => rfl
    | cons c more =>
      have hread := hmore 0
      rw [Place.read_append (hcs 0)] at hread
      unfold Place.read at hread
      rw [List.foldlM_cons, hstop c rfl] at hread
      cases hread
  have hhead : ∀ {more rest rest' : List Char}, rest = more ++ rest' →
      (∀ c ∈ rest.head?, (Place.plain 0).step c = none) →
      ∀ c ∈ more.head?, (Place.plain 0).step c = none := by
    rintro more rest rest' rfl hstop c hc
    cases more with
    | nil => cases hc
    | cons d more => exact hstop c hc
  rcases List.append_eq_append_iff.mp heq with ⟨more, rfl, hrest⟩ | ⟨more, rfl, hrest⟩
  · obtain rfl := hnone h h' (hhead hrest hend)
    exact ⟨(List.append_nil cs).symm, hrest⟩
  · obtain rfl := hnone h' h (hhead hrest hend')
    exact ⟨List.append_nil cs', hrest.symm⟩

theorem joinedTail_ends (parts : List (List Char)) :
    ∀ c ∈ (joinedTail parts).head?, (Place.plain 0).step c = none := by
  intro c hc
  cases parts with
  | nil => cases hc
  | cons part parts =>
    obtain rfl : ',' = c := Option.some.inj hc
    rfl

theorem commaJoin_eq_of_joinedTail_eq {parts parts' : List (List Char)}
    (h : joinedTail parts = joinedTail parts') : commaJoin parts = commaJoin parts' := by
  cases parts with
  | nil =>
    cases parts' with
    | nil => rfl
    | cons part' parts' => cases h
  | cons part parts =>
    cases parts' with
    | nil => cases h
    | cons part' parts' =>
      unfold joinedTail at h
      exact (List.cons.inj (List.cons.inj h).2).2

theorem commaJoin_injective {parts parts' : List (List Char)}
    (h : ∀ part ∈ parts, Closed part ∧ part ≠ []) (h' : ∀ part ∈ parts', Closed part ∧ part ≠ [])
    (heq : commaJoin parts = commaJoin parts') : parts = parts' := by
  induction parts generalizing parts' with
  | nil =>
    cases parts' with
    | nil => rfl
    | cons part' parts' =>
      rw [commaJoin_cons] at heq
      exact absurd (List.append_eq_nil_iff.mp heq.symm).1 (h' part' List.mem_cons_self).2
  | cons part parts ih =>
    cases parts' with
    | nil =>
      rw [commaJoin_cons] at heq
      exact absurd (List.append_eq_nil_iff.mp heq).1 (h part List.mem_cons_self).2
    | cons part' parts' =>
      obtain ⟨⟨hpart, -⟩, hparts⟩ := List.forall_mem_cons.mp h
      obtain ⟨⟨hpart', -⟩, hparts'⟩ := List.forall_mem_cons.mp h'
      rw [commaJoin_cons, commaJoin_cons] at heq
      obtain ⟨rfl, htail⟩ := hpart.append_inj hpart' (joinedTail_ends _) (joinedTail_ends _) heq
      rw [ih hparts hparts' (commaJoin_eq_of_joinedTail_eq htail)]

/-! ## Maps -/

theorem canonical_ne_nil (v : Value) : v.canonical ≠ [] := by
  cases v with
  | null => exact List.cons_ne_nil _ _
  | bool b => cases b <;> exact List.cons_ne_nil _ _
  | int n =>
    intro h
    have hempty : toString n = "" := String.toList_eq_nil_iff.mp h
    rw [Int.toString_eq_repr, Int.repr_eq_if] at hempty
    split at hempty
    · exact Nat.repr_ne_empty hempty
    · exact absurd (congrArg String.toList hempty) (by simp)
  | float x =>
    intro h
    obtain ⟨c, hc, -⟩ := x.exists_mem_written
    have hmem : c ∈ (float x).canonical := hc
    rw [h] at hmem
    cases hmem
  | str s => exact List.cons_ne_nil _ _
  | list items => exact List.cons_ne_nil _ _
  | map entries => exact List.cons_ne_nil _ _

theorem entryText_injective : Function.Injective entryText := by
  rintro ⟨k, text⟩ ⟨k', text'⟩ h
  unfold entryText at h
  rw [List.append_assoc, List.append_assoc] at h
  obtain ⟨hkey, hrest⟩ := canonicalString_append_inj h
  exact Prod.ext hkey (List.append_cancel_left hrest)

theorem sortByKey_eq_of_canonical_eq {o o' : Entries} (h : (map o).canonical = (map o').canonical) :
    sortByKey (canonicalEntries o) = sortByKey (canonicalEntries o') := by
  have hparts : ∀ o : Entries, ∀ part ∈ (sortByKey (canonicalEntries o)).map entryText,
      Closed part ∧ part ≠ [] := by
    intro o part hpart
    obtain ⟨e, he, rfl⟩ := List.mem_map.mp hpart
    have htext : Closed e.2 := closed_canonicalEntries o e ((Sorting.mem_sort_iff _ _ _).mp he)
    exact ⟨closed_entryText htext, List.cons_ne_nil _ _⟩
  have hjoined : commaJoin ((sortByKey (canonicalEntries o)).map entryText) =
      commaJoin ((sortByKey (canonicalEntries o')).map entryText) := by
    unfold canonical at h
    exact List.append_cancel_right (List.cons.inj h).2
  exact List.map_injective_iff.mpr entryText_injective
    (commaJoin_injective (hparts o) (hparts o') hjoined)

theorem find?_insert (e : String × List Char) (es : List (String × List Char)) (key : String) :
    (Sorting.insert (fun a b => decide (a.1 ≤ b.1)) e es).find? (·.1 == key) =
      (e :: es).find? (·.1 == key) := by
  induction es with
  | nil => rfl
  | cons f es ih =>
    unfold Sorting.insert
    split
    · rfl
    · next hle =>
      have hne : e.1 ≠ f.1 := by
        intro heq
        rw [heq] at hle
        exact hle (decide_eq_true (String.le_refl f.1))
      rw [List.find?_cons, ih, List.find?_cons, List.find?_cons, List.find?_cons]
      by_cases he : e.1 = key
      · have hf : (f.1 == key) = false := by
          rw [beq_eq_false_iff_ne]
          exact fun hf => hne (he.trans hf.symm)
        rw [hf]
      · rw [beq_eq_false_iff_ne.mpr he]

theorem find?_sortByKey (es : List (String × List Char)) (key : String) :
    (sortByKey es).find? (·.1 == key) = es.find? (·.1 == key) := by
  unfold sortByKey
  induction es with
  | nil => rfl
  | cons e es ih =>
    unfold Sorting.sort
    rw [find?_insert, List.find?_cons, List.find?_cons, ih]

theorem find?_canonicalEntries (o : Entries) (key : String) :
    ((canonicalEntries o).find? (·.1 == key)).map Prod.snd = (o.get? key).map canonical := by
  induction o with
  | nil => rfl
  | cons e o ih =>
    obtain ⟨k, v⟩ := e
    unfold canonicalEntries
    unfold Entries.get? at ih ⊢
    rw [List.find?_cons, List.find?_cons]
    cases k == key with
    | true => rfl
    | false => exact ih

theorem canonical_get?_eq {o o' : Entries} (h : (map o).canonical = (map o').canonical)
    (key : String) : (o.get? key).map canonical = (o'.get? key).map canonical := by
  rw [← find?_canonicalEntries, ← find?_canonicalEntries, ← find?_sortByKey,
    ← find?_sortByKey (canonicalEntries o'), sortByKey_eq_of_canonical_eq h]

/-! ## What the text of a value shows -/

def unsetTexts : List (List Char) :=
  ["null", "false", "0", "0.0", "-0.0", "\"\"", "[]", "\x7b\x7d"].map String.toList

def unitTexts : List (List Char) := ["true", "1", "1.0"].map String.toList

theorem toString_int_mem {n m : Int} {texts : List (List Char)}
    (h : ∀ text ∈ texts, text.all (fun c => c.isDigit || c == '-') = true →
      text = (toString m).toList)
    (hm : (toString m).toList ∈ texts) : (toString n).toList ∈ texts ↔ n = m := by
  constructor
  · intro hn
    have hchars : (toString n).toList.all (fun c => c.isDigit || c == '-') = true :=
      List.all_eq_true.mpr fun c hc => by simpa using mem_toString_int hc
    have htext := String.toList_inj.mp (h _ hn hchars)
    rw [Int.toString_eq_repr, Int.toString_eq_repr] at htext
    exact Int.repr_injective htext
  · rintro rfl
    exact hm

theorem commaJoin_eq_nil_iff {parts : List (List Char)} (h : ∀ part ∈ parts, part ≠ []) :
    commaJoin parts = [] ↔ parts = [] := by
  cases parts with
  | nil => exact iff_of_true rfl rfl
  | cons part parts =>
    rw [commaJoin_cons, List.append_eq_nil_iff]
    exact iff_of_false (fun h' => h part List.mem_cons_self h'.1) (List.cons_ne_nil _ _)

theorem written_mem_iff {texts found : List (List Char)}
    (h : ∀ text ∈ texts, text.all Binary64.numeral = true →
      text.any (fun c => !c.isDigit && c != '-') = true → text ∈ found)
    (hfound : found ⊆ texts) (x : Binary64) : (x.written canonicalSpelling).toList ∈ texts ↔
      (x.written canonicalSpelling).toList ∈ found := by
  refine ⟨fun hx => h _ hx (List.all_eq_true.mpr x.numeral_written) ?_, fun hx => hfound hx⟩
  obtain ⟨c, hc, hdigit, hsign⟩ := x.exists_mem_written
  refine List.any_eq_true.mpr ⟨c, hc, ?_⟩
  rw [hdigit, Bool.not_false, Bool.true_and, bne_iff_ne]
  exact hsign

theorem brackets_mem_iff {left right : Char} {texts parts : List (List Char)}
    (h : ∀ text ∈ texts, text.head? = some left → text = [left, right])
    (hmem : [left, right] ∈ texts) (hparts : ∀ part ∈ parts, part ≠ []) :
    left :: commaJoin parts ++ [right] ∈ texts ↔ parts = [] := by
  constructor
  · intro htext
    have hjoined : commaJoin parts ++ [right] = [] ++ [right] := (List.cons.inj (h _ htext rfl)).2
    exact (commaJoin_eq_nil_iff hparts).mp (List.append_cancel_right hjoined)
  · rintro rfl
    exact hmem

theorem canonicalItems_ne_nil {items : List Value} : ∀ text ∈ canonicalItems items, text ≠ [] := by
  induction items with
  | nil => exact List.forall_mem_nil _
  | cons v rest ih => exact List.forall_mem_cons.mpr ⟨canonical_ne_nil v, ih⟩

theorem mem_unsetTexts_iff (v : Value) : v.canonical ∈ unsetTexts ↔ v.truthy = false := by
  cases v with
  | null => decide
  | bool b => cases b <;> decide
  | int n =>
    have hint : (int n).canonical ∈ unsetTexts ↔ n = 0 := toString_int_mem (by decide) (by decide)
    rw [hint, truthy, bne_eq_false_iff_eq]
  | float x =>
    have hfloat : (float x).canonical ∈ unsetTexts ↔
        (x.written canonicalSpelling).toList ∈ ["0.0".toList, "-0.0".toList] :=
      written_mem_iff (by decide) (by decide) x
    rw [hfloat, Binary64.written_eq_zero_iff, truthy, Bool.not_eq_eq_eq_not, Bool.not_false]
  | str s =>
    have htexts : ∀ text ∈ unsetTexts, text.head? = some doubleQuote →
        text = canonicalString "" := by decide
    have hstr : (str s).canonical ∈ unsetTexts ↔ s = "" := by
      constructor
      · intro h
        exact (canonicalString_append_inj (congrArg (· ++ []) (htexts _ h rfl))).1
      · rintro rfl
        decide
    rw [hstr, truthy, Bool.not_eq_eq_eq_not, Bool.not_false, String.isEmpty_iff]
  | list items =>
    have hlist : (list items).canonical ∈ unsetTexts ↔ canonicalItems items = [] :=
      brackets_mem_iff (by decide) (by decide) canonicalItems_ne_nil
    rw [hlist, truthy, Bool.not_eq_eq_eq_not, Bool.not_false, List.isEmpty_iff]
    cases items with
    | nil => exact iff_of_true rfl rfl
    | cons v rest => exact iff_of_false (List.cons_ne_nil _ _) (List.cons_ne_nil _ _)
  | map entries =>
    have hmap : (map entries).canonical ∈ unsetTexts ↔
        (sortByKey (canonicalEntries entries)).map entryText = [] := by
      refine brackets_mem_iff (by decide) (by decide) ?_
      intro part hpart
      obtain ⟨e, -, rfl⟩ := List.mem_map.mp hpart
      exact List.cons_ne_nil _ _
    rw [hmap, truthy, Bool.not_eq_eq_eq_not, Bool.not_false, List.isEmpty_iff, List.map_eq_nil_iff,
      ← List.length_eq_zero_iff, sortByKey, Sorting.length_sort, List.length_eq_zero_iff]
    cases entries with
    | nil => exact iff_of_true rfl rfl
    | cons e rest => exact iff_of_false (List.cons_ne_nil _ _) (List.cons_ne_nil _ _)

theorem mem_unitTexts_iff (v : Value) : v.canonical ∈ unitTexts ↔ v.equalsInt 1 = true := by
  have hother : ∀ text ∈ unitTexts,
      text.head? ∉ [some doubleQuote, some '[', some '\x7b'] := by decide
  unfold equalsInt
  rw [beq_iff_eq]
  cases v with
  | null => decide
  | bool b => cases b <;> decide
  | int n =>
    have hint : (int n).canonical ∈ unitTexts ↔ n = 1 := toString_int_mem (by decide) (by decide)
    rw [hint, asInt?, Option.some.injEq]
  | float x =>
    have hfloat : (float x).canonical ∈ unitTexts ↔
        (x.written canonicalSpelling).toList ∈ ["1.0".toList] :=
      written_mem_iff (by decide) (by decide) x
    rw [hfloat, List.mem_singleton, Binary64.written_eq_one_iff, asInt?]
  | str s =>
    refine iff_of_false (fun h => hother _ h ?_) (by rintro ⟨⟩)
    exact List.mem_cons_self
  | list items =>
    refine iff_of_false (fun h => hother _ h ?_) (by rintro ⟨⟩)
    exact List.mem_cons_of_mem _ List.mem_cons_self
  | map entries =>
    refine iff_of_false (fun h => hother _ h ?_) (by rintro ⟨⟩)
    exact List.mem_cons_of_mem _ (List.mem_cons_of_mem _ List.mem_cons_self)

theorem exists_str_of_head {v : Value} (h : v.canonical.head? = some doubleQuote) :
    ∃ s, v = str s := by
  have hnumeral : ∀ {text : List Char}, (∀ c ∈ text, Binary64.numeral c = true) →
      text.head? ≠ some doubleQuote := by
    intro text htext hhead
    have := htext _ (List.mem_of_head? hhead)
    exact absurd this (by decide)
  cases v with
  | null => exact absurd h (by decide)
  | bool b => cases b <;> exact absurd h (by decide)
  | int n => exact absurd h (hnumeral fun _ => numeral_of_mem_toString_int)
  | float x => exact absurd h (hnumeral x.numeral_written)
  | str s => exact ⟨s, rfl⟩
  | list items => exact absurd (Option.some.inj h) (by decide)
  | map entries => exact absurd (Option.some.inj h) (by decide)

theorem string_eq_of_canonical_eq {v v' : Value} (h : v.canonical = v'.canonical) :
    Decode.string v = Decode.string v' := by
  have hnot : ∀ {v : Value}, v.canonical.head? ≠ some doubleQuote →
      Decode.string v = Checked.fault .notString := by
    intro v hv
    cases v with
    | str s => exact absurd rfl hv
    | _ => rfl
  by_cases hquote : v.canonical.head? = some doubleQuote
  · obtain ⟨s, rfl⟩ := exists_str_of_head hquote
    obtain ⟨s', rfl⟩ := exists_str_of_head (h ▸ hquote)
    rw [(canonicalString_append_inj (congrArg (· ++ []) h)).1]
  · rw [hnot hquote, hnot (h ▸ hquote)]

end Value

/-! ## Keys -/

/-- The digest tells the messages apart, if they differ. -/
def Digest.Discerns (m m' : List UInt8) : Prop := hex m = hex m' → m = m'

instance (m m' : List UInt8) : Decidable (Digest.Discerns m m') :=
  inferInstanceAs (Decidable (_ → _))

/-- Unless two texts have one digest, options have one key if and only if they have one text. -/
theorem optionsKey_eq_iff {o o' : Entries}
    (h : Digest.Discerns (Value.map o).bytes (Value.map o').bytes) :
    optionsKey o = optionsKey o' ↔ (Value.map o).canonical = (Value.map o').canonical := by
  constructor
  · intro hkey
    exact Text.encoded_inj.mp (h hkey)
  · intro htext
    unfold optionsKey Value.digest Value.bytes
    rw [htext]

end Marginalia
