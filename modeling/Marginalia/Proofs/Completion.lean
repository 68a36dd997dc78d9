import Mathlib.Data.List.DropRight
import Marginalia.Proofs.Kind
import Marginalia.Proofs.Unresolved

/-!
# What completions continue

A completion continues the word that ends at its caret.  The search for that word passes over a line
feed right before the caret, so at the beginning of a line it finds the last word of the line before.
Markers never point there, since a caret has its slashes to the left.
-/

namespace Marginalia
set_option autoImplicit false

namespace Text

def isTyped (c : Char) : Bool := !isBlank c && c != '.'

/-- The longest end of a text without blanks and points. -/
structure TypedEnd (before typed : List Char) : Prop where
  suffix : typed <:+ before
  plain : ∀ c ∈ typed, isTyped c = true
  longest : ∀ other, other <:+ before → (∀ c ∈ other, isTyped c = true) → other.length ≤ typed.length

/-- A word ends right before the line feed at the end of the text. -/
def EndsFed (before : List Char) : Prop :=
  ∃ front c, before = front ++ [c, '\n'] ∧ isTyped c = true

theorem length_le_rtakeWhile {α : Type} {p : α → Bool} {xs ys : List α} (h : xs <:+ ys)
    (hall : ∀ x ∈ xs, p x = true) : xs.length ≤ (ys.rtakeWhile p).length := by
  obtain ⟨front, rfl⟩ := h
  have hrest : (xs.reverse ++ front.reverse).takeWhile p =
      xs.reverse ++ front.reverse.takeWhile p :=
    List.takeWhile_append_of_pos fun x hx => hall x (List.mem_reverse.mp hx)
  rw [List.rtakeWhile, List.reverse_append, hrest, List.length_reverse, List.length_append,
    List.length_reverse]
  exact Nat.le_add_right _ _

theorem typedEnd_iff {before typed : List Char} :
    TypedEnd before typed ↔ typed = before.rtakeWhile isTyped := by
  have hsuffix := List.rtakeWhile_suffix isTyped before
  have hplain : ∀ c ∈ before.rtakeWhile isTyped, isTyped c = true := fun c => List.mem_rtakeWhile_imp
  constructor
  · intro h
    have hle := length_le_rtakeWhile h.suffix h.plain
    have hge := h.longest _ hsuffix hplain
    exact (List.suffix_of_suffix_length_le h.suffix hsuffix hle).eq_of_length (Nat.le_antisymm hle hge)
  · rintro rfl
    exact ⟨hsuffix, hplain, fun other hother hall => length_le_rtakeWhile hother hall⟩

theorem endsFed_concat {front : List Char} :
    EndsFed (front ++ ['\n']) ↔ front.rtakeWhile isTyped ≠ [] := by
  rw [ne_eq, List.rtakeWhile_eq_nil_iff]
  constructor
  · rintro ⟨shorter, c, heq, hc⟩ hnone
    obtain rfl : front = shorter ++ [c] := by
      refine (List.append_left_inj ['\n']).mp ?_
      rw [heq, List.append_assoc]
      rfl
    exact hnone (by simp) (by simpa using hc)
  · intro h
    push Not at h
    obtain ⟨hne, hlast⟩ := h
    refine ⟨front.dropLast, front.getLast hne, ?_, hlast⟩
    have hfront := List.dropLast_append_getLast hne
    nth_rewrite 1 [← hfront]
    rw [List.append_assoc]
    rfl

end Text

namespace Work

theorem typedBefore_concat_feed (front : List Char) :
    typedBefore (front ++ ['\n']) = front.rtakeWhile Text.isTyped := by
  unfold typedBefore
  rw [List.reverse_append]
  rfl

theorem typedBefore_of_not_feed {before : List Char} (h : ∀ front, before ≠ front ++ ['\n']) :
    typedBefore before = before.rtakeWhile Text.isTyped := by
  unfold typedBefore
  split
  · next rest hrest =>
    refine absurd ?_ (h rest.reverse)
    rw [← List.reverse_cons, ← hrest, List.reverse_reverse]
  · rfl

/-- The word that ends at the caret is found unless the caret stands behind a line feed that ends a
word. -/
theorem typedEnd_typedBefore_iff (before : List Char) :
    Text.TypedEnd before (typedBefore before) ↔ ¬ Text.EndsFed before := by
  rw [Text.typedEnd_iff]
  by_cases hfeed : ∃ front, before = front ++ ['\n']
  · obtain ⟨front, rfl⟩ := hfeed
    have hnone : (front ++ ['\n']).rtakeWhile Text.isTyped = [] :=
      List.rtakeWhile_concat_neg Text.isTyped front '\n' (by decide)
    rw [typedBefore_concat_feed, hnone, Text.endsFed_concat, not_not]
  · have hplain : ∀ front, before ≠ front ++ ['\n'] := fun front heq => hfeed ⟨front, heq⟩
    refine iff_of_true (typedBefore_of_not_feed hplain) ?_
    rintro ⟨front, c, rfl, -⟩
    exact hplain (front ++ [c]) (by simp)

theorem typedEnd_of_endsFed {before : List Char} (h : Text.EndsFed before) :
    Text.TypedEnd before.dropLast (typedBefore before) := by
  obtain ⟨front, c, rfl, -⟩ := h
  have hfeed : front ++ [c, '\n'] = front ++ [c] ++ ['\n'] := by simp
  rw [Text.typedEnd_iff, hfeed, typedBefore_concat_feed, List.dropLast_concat]

end Work

namespace Marker

theorem column_pos_of_form? {text : List Char} {f : Form} (h : form? text = some f) :
    0 < f.column := by
  obtain ⟨before, rest, rfl, -, hcolumn, -⟩ := form?_eq_some h
  rw [← hcolumn, List.length_pos_iff]
  rintro rfl
  cases h

theorem not_endsFed_of_reaches {code : List Char} {k i : Nat} {kind : MarkerKind}
    (h : Records code k kind i) (hreach : Reaches code k) : ¬ Text.EndsFed (code.take i) := by
  obtain ⟨l, f, hl, hf, -, htarget⟩ := h
  obtain ⟨upper, l', f', -, hupper, hl', hf', hcolumn⟩ := hreach
  obtain rfl : l' = l := Option.some.inj (hl'.symm.trans hl)
  obtain rfl : f' = f := Option.some.inj (hf'.symm.trans hf)
  rw [target_eq hl hupper hf] at htarget
  obtain ⟨front, back, hcode, hfront, hplain, -⟩ :=
    Line.exists_of_mem_all (List.mem_of_getElem? hupper)
  have hplace : i = front.length + f'.column := by omega
  have htake : code.take i = front ++ upper.text.take f'.column := by
    rw [hcode, hplace, List.take_length_add_append, List.take_append_of_le_length hcolumn]
  -- What is typed before the place ends in the line above, which has no line feed.
  rintro ⟨before, c, heq, -⟩
  have hne : upper.text.take f'.column ≠ [] := by
    rw [← List.length_pos_iff, List.length_take_of_le hcolumn]
    exact column_pos_of_form? hf
  have hlast : (upper.text.take f'.column).getLast? = some '\n' := by
    rw [htake] at heq
    have hboth := congrArg List.getLast? heq
    rw [List.getLast?_append_of_ne_nil _ hne] at hboth
    simpa using hboth
  exact hplain (List.mem_of_mem_take (List.mem_of_getLast? hlast))

end Marker

namespace Plan
variable {plan : Plan}

def place (plan : Plan) (i : Nat) : Nat :=
  if plan.behaviour.keepNotations then i else Text.countBelow (Span.stays plan.removals) i

theorem left?_completionNote {job : Job} {start : Plan} {vocabulary : Flag.Vocabulary}
    {root : String} {code : List Char} {tags : List Note}
    (hread : start.read vocabulary root code = .ok (plan, tags)) {i : Nat}
    (hstays : plan.removes i = false) (offered : Option (List Completion)) (text : List Char) :
    plan.left? text (Answered.completionNote job i offered) =
      some ({ Answered.completionNote job i offered with start := plan.place i }.resolve text) := by
  -- A completion has no length, so a span strikes it only if it takes the index away.
  have hmoved : plan.moved (Answered.completionNote job i offered) =
      { Answered.completionNote job i offered with start := plan.place i } := by
    unfold moved place
    split
    · rfl
    · have hproper := removals_proper hread
      rw [removes_eq, Bool.not_eq_false'] at hstays
      have hleft : 0 ≤ Span.eraseStart (0 : Nat) i plan.removals :=
        (Span.eraseStart_nonneg_iff_stays hproper (removals_filled hread) hstays).mpr
          fun k hk hlt => absurd hlt (Nat.not_lt.mpr hk)
      rw [settled_of_not_tag plan rfl, ← Span.eraseStart_eq_countBelow hproper hleft]
      rfl
  unfold left?
  rw [hmoved, if_pos (Int.natCast_nonneg _)]

end Plan

namespace Answered
variable {job : Job} {plan : Plan} {c : Checker} {s : Section} {found : List Note}

theorem typed_of_completionNote {i : Nat} {offered : Option (List Completion)}
    {entries : List Completion} {typed : String}
    (h : (completionNote job i offered).body = .completion entries typed) :
    typed.toList = Work.typedBefore (job.code.take i) ∧
      entries = (offered.getD []).filter fun e => typed.toList.isPrefixOf e.name.toList := by
  have hupTo : Text.upTo job.code i = job.code.take i := by
    rw [Text.upTo, Text.place_of_nonneg (Int.natCast_nonneg i), Int.toNat_natCast]
  unfold completionNote at h
  rw [hupTo] at h
  obtain ⟨rfl, rfl⟩ := Note.Body.completion.inj h
  rw [String.toList_ofList]
  exact ⟨rfl, rfl⟩

theorem completions_eq (h : completions job plan (c.create s.path s.content) s = .ok found) :
    found = ((plan.asked.completions.filter s.contains).filter fun i => !plan.removes i).map
      (completionNote job · c.offered) := by
  have hone : ∀ i o, completion job plan (c.create s.path s.content) s i = .ok o →
      o = if !plan.removes i then some (completionNote job i c.offered) else none := by
    intro i o ho
    unfold completion at ho
    rw [Checker.completions?_create_self] at ho
    split at ho
    · next hremoved =>
      rw [hremoved]
      exact (Except.ok.inj ho).symm
    · next hstays =>
      rw [Bool.eq_false_iff.mpr hstays]
      split at ho
      · cases ho
      · exact (Except.ok.inj ho).symm
  rw [Outcome.eq_filterMap_of_filterMapM h fun i _ o ho => hone i o ho, ← List.filterMap_eq_map]
  exact List.filterMap_filter.symm

theorem completion_mem_noted_iff {xs : List Identifier}
    (h : noted job plan (.ok c) (s, xs) = .ok found) {n : Note} :
    n ∈ found ∧ n.isOf "completion" = true ↔
      ∃ i ∈ plan.asked.completions, s.contains i = true ∧ plan.removes i = false ∧
        n = completionNote job i c.offered := by
  rw [← List.mem_filter, completions_eq (filter_notes h).2]
  simp only [List.mem_map, List.mem_filter, Bool.not_eq_true', and_assoc, eq_comm (a := n)]

end Answered

/-- The completions of a result that shows the sample: those at the places that are asked about in
registered sections, stay and are kept by the caller. -/
theorem Annotator.exists_completions {a : Annotator} {q : Request} {w : World} {r : Result}
    (h : (a.annotate q w).1 = .ok r) (hemit : r.plan.behaviour.showEmit = false) :
    ∃ plan tags, a.reading q = .ok (plan, tags) ∧
      (∀ s ∈ plan.taken, ∃ c, w.serving a.slot a.script plan.options = .ok c) ∧
      ∀ n, n ∈ r.notes ∧ n.isOf "completion" = true ↔
        ∃ c, ∃ s ∈ plan.taken, ∃ i : Nat, w.serving a.slot a.script plan.options = .ok c ∧
          (i : Int) ∈ plan.asked.completions ∧ s.contains i = true ∧ plan.removes i = false ∧
          (a.job q).keeps (Answered.completionNote (a.job q) i c.offered) = true ∧
          n = { Answered.completionNote (a.job q) i c.offered with
            start := plan.place i }.resolve r.code := by
  obtain ⟨plan, tags, parts, hreading, -, hparts, hkind⟩ := exists_of_kind h hemit
  obtain ⟨start, -, hread⟩ := Outcome.bind_eq_ok.mp hreading
  have hnoted : ∀ s ∈ plan.taken, ∃ c xs, ∃ part ∈ parts,
      w.serving a.slot a.script plan.options = .ok c ∧
      Answered.noted (a.job q) plan (.ok c) (s, xs) = .ok part := by
    intro s hs
    rw [← plan.map_fst_readAll w.trees plan.taken] at hs
    obtain ⟨⟨s, xs⟩, hidentified, rfl⟩ := List.mem_map.mp hs
    obtain ⟨part, hpart, hnoted⟩ := Outcome.exists_mem_of_mapM hparts hidentified
    obtain ⟨c, hc, -⟩ := Outcome.bind_eq_ok.mp hnoted
    rw [hc] at hnoted
    exact ⟨c, xs, part, hpart, hc, hnoted⟩
  refine ⟨plan, tags, hreading, ?_, fun n => ?_⟩
  · intro s hs
    obtain ⟨c, -, -, -, hc, -⟩ := hnoted s hs
    exact ⟨c, hc⟩
  rw [← List.mem_filter, (hkind "completion" (by decide) (by decide)).mem_iff, List.mem_filterMap]
  constructor
  · rintro ⟨m, hm, hleft⟩
    obtain ⟨hm, hkeeps⟩ := List.mem_filter.mp hm
    obtain ⟨hm, hisOf⟩ := List.mem_filter.mp hm
    obtain ⟨part, hpart, hm⟩ := List.mem_flatten.mp hm
    obtain ⟨⟨s, xs⟩, hs, hnoted⟩ := Outcome.exists_of_mem_mapM hparts hpart
    obtain ⟨c, hc, -⟩ := Outcome.bind_eq_ok.mp hnoted
    rw [hc] at hnoted
    obtain ⟨i, hi, hcontains, hstays, rfl⟩ :=
      (Answered.completion_mem_noted_iff hnoted).mp ⟨hm, hisOf⟩
    obtain ⟨i, rfl⟩ := Int.eq_ofNat_of_zero_le (Section.nonneg_of_contains hcontains)
    rw [Plan.left?_completionNote hread hstays] at hleft
    have hs : s ∈ plan.taken :=
      plan.map_fst_readAll w.trees plan.taken ▸ List.mem_map_of_mem hs
    exact ⟨c, s, hs, i, hc, hi, hcontains, hstays, hkeeps, (Option.some.inj hleft).symm⟩
  · rintro ⟨c, s, hs, i, hc, hi, hcontains, hstays, hkeeps, rfl⟩
    obtain ⟨c', xs, part, hpart, hc', hnoted⟩ := hnoted s hs
    obtain rfl : c' = c := Except.ok.inj (hc'.symm.trans hc)
    obtain ⟨hm, hisOf⟩ := (Answered.completion_mem_noted_iff hnoted).mpr
      ⟨i, hi, hcontains, hstays, rfl⟩
    have hfound := List.mem_flatten.mpr ⟨part, hpart, hm⟩
    exact ⟨_, List.mem_filter.mpr ⟨List.mem_filter.mpr ⟨hfound, hisOf⟩, hkeeps⟩,
      Plan.left?_completionNote hread hstays _ _⟩

theorem Annotator.not_endsFed_of_records {a : Annotator} {q : Request} {plan : Plan}
    {tags : List Note} (hreading : a.reading q = .ok (plan, tags)) {k i : Nat} {kind : MarkerKind}
    (h : Marker.Records q.code k kind i) (hstays : plan.removes i = false) :
    ¬ Text.EndsFed (q.code.take i) := by
  refine Marker.not_endsFed_of_reaches h ?_
  by_contra hreach
  obtain ⟨span, hspan, hi⟩ := Marker.exists_removal_of_not_reaches h hreach
  exact absurd (removes_of_removals hreading hspan hi) (Bool.eq_false_iff.mp hstays)

/-- The completions of a result.  Each belongs to a place that is asked about, is in a registered
section and stays, and offers what continues the word that was found there, in the order of the
checker.  The word is the one that ends at the place exactly if the place is not behind a line feed that
ends a word, which is so at the places of markers.  Behind such a line feed it is the word before it.
If the caller keeps all notes, every such place has its completion. -/
theorem Annotator.completion_typed_iff (a : Annotator) (q : Request) (w : World) (r : Result)
    (h : (a.annotate q w).1 = .ok r) :
    ∃ plan tags, a.reading q = .ok (plan, tags) ∧
      (∀ n ∈ r.notes, ∀ entries typed, n.body = .completion entries typed →
        ∃ c s, ∃ i : Nat, w.serving a.slot a.script plan.options = .ok c ∧ s ∈ plan.sections ∧
          plan.registers s = true ∧ s.contains i = true ∧ i < q.code.length ∧
          (i : Int) ∈ plan.asked.completions ∧ plan.removes i = false ∧ n.start = plan.place i ∧
          entries = (c.offered.getD []).filter (fun e => typed.toList.isPrefixOf e.name.toList) ∧
          (Text.TypedEnd (q.code.take i) typed.toList ↔ ¬ Text.EndsFed (q.code.take i)) ∧
          (Text.EndsFed (q.code.take i) → Text.TypedEnd (q.code.take (i - 1)) typed.toList) ∧
          ((∃ k, Marker.Records q.code k .completion i) →
            Text.TypedEnd (q.code.take i) typed.toList)) ∧
      (r.plan.behaviour.showEmit = false → (a.job q).kept = none →
        ∀ s ∈ plan.sections, plan.registers s = true → ∀ i : Nat, (i : Int) ∈ plan.asked.completions →
          s.contains i = true → plan.removes i = false →
          ∃ n ∈ r.notes, n.start = plan.place i ∧ ∃ entries typed, n.body = .completion entries typed) := by
  -- On an emitted text there are no notes.
  by_cases hemit : r.plan.behaviour.showEmit = true
  · obtain ⟨plan, notes, hcollected, hending⟩ := exists_collected h
    obtain ⟨tags, -, -, hreading, -⟩ := collected_ok hcollected
    refine ⟨plan, tags, hreading, ?_, fun hnot => absurd hemit (Bool.eq_false_iff.mp hnot)⟩
    intro n hn
    obtain ⟨hnot, -⟩ := Answered.exists_of_mem_notes hending hn
    rw [Answered.behaviour_of_ending hending] at hemit
    exact absurd hemit (Bool.eq_false_iff.mp hnot)
  obtain ⟨plan, tags, hreading, hserving, hmem⟩ :=
    exists_completions h (Bool.eq_false_iff.mpr hemit)
  refine ⟨plan, tags, hreading, ?_, ?_⟩
  · intro n hn entries typed hbody
    have hisOf : n.isOf "completion" = true := by
      rw [Note.isOf, Note.kindName, hbody]
      rfl
    obtain ⟨c, s, hs, i, hc, hi, hcontains, hstays, -, rfl⟩ := (hmem n).mp ⟨hn, hisOf⟩
    obtain ⟨hsection, hregisters⟩ := List.mem_filter.mp hs
    have hinside : i < q.code.length := by
      obtain ⟨start, -, hread⟩ := Outcome.bind_eq_ok.mp hreading
      rw [Plan.sections_eq hread] at hsection
      have hstop := (Section.partOf_of_mem_split hsection).stop
      have hlt := ((s.contains_iff i).mp hcontains).2
      omega
    obtain ⟨htyped, hentries⟩ := Answered.typed_of_completionNote hbody
    have hiff := Work.typedEnd_typedBefore_iff (q.code.take i)
    have hfed : Text.EndsFed (q.code.take i) →
        Text.TypedEnd (q.code.take i).dropLast (Work.typedBefore (q.code.take i)) :=
      Work.typedEnd_of_endsFed
    rw [List.dropLast_take hinside] at hfed
    have hword : typed.toList = Work.typedBefore (q.code.take i) := htyped
    rw [← hword] at hiff hfed
    refine ⟨c, s, i, hc, hsection, hregisters, hcontains, hinside, hi, hstays, rfl, hentries, hiff,
      hfed, ?_⟩
    rintro ⟨k, hrecords⟩
    exact hiff.mpr (not_endsFed_of_records hreading hrecords hstays)
  · intro _ hkept s hsection hregisters i hi hcontains hstays
    have hs : s ∈ plan.taken := List.mem_filter.mpr ⟨hsection, hregisters⟩
    obtain ⟨c, hc⟩ := hserving s hs
    have hkeeps : ∀ n, (a.job q).keeps n = true := by
      intro n
      rw [Job.keeps, hkept]
      rfl
    obtain ⟨hn, -⟩ := (hmem _).mpr ⟨c, s, hs, i, hc, hi, hcontains, hstays, hkeeps _, rfl⟩
    exact ⟨_, hn, rfl, _, _, rfl⟩

/-- The marker points behind the first character after a point. -/
theorem Annotator.completion_typed_iff_example :
    let a : Annotator :=
      { script := { completions := some [.map [("name", .str "bar")], .map [("name", .str "abc")],
          .map [("name", .str "b")]] }
        declarations := [] }
    let q : Request := { code := "a.bc\n// ^|\n".toList }
    ∃ r n, (a.annotate q {}).1 = .ok r ∧ n ∈ r.notes ∧
      n.body = .completion [{ name := "bar" }, { name := "b" }] "b" ∧
      Text.TypedEnd (q.code.take 3) "b".toList := by
  intro a q
  have hrun : ((a.annotate q {}).1.toOption.map fun r => r.notes.map Note.body) =
      some [.completion [{ name := "bar" }, { name := "b" }] "b"] := by
    decide +kernel
  have hplan : ((a.reading q).toOption.map fun x => x.1.asked.completions) = some [3] := by
    decide +kernel
  obtain ⟨r, hr, hnotes⟩ := Outcome.exists_ok_of_toOption_map hrun
  obtain ⟨n, hn, hbody⟩ := List.map_eq_singleton_iff.mp hnotes
  have hmem : n ∈ r.notes := by
    rw [hn]
    exact List.mem_singleton_self n
  obtain ⟨plan, tags, hread, hall, -⟩ := completion_typed_iff a q {} r hr
  obtain ⟨c, s, i, -, -, -, -, -, hasked, -, -, -, -, -, hmarker⟩ := hall n hmem _ _ hbody
  rw [hread] at hplan
  have hthree : plan.asked.completions = [3] := Option.some.inj hplan
  rw [hthree, List.mem_singleton] at hasked
  obtain rfl : i = 3 := Int.ofNat.inj hasked
  have hrecords : ∃ k, Marker.Records q.code k .completion 3 :=
    Marker.mem_starts_iff.mp (by decide)
  exact ⟨r, n, hr, hmem, hbody, hmarker hrecords⟩

/-- At the beginning of the second line nothing is typed, and the first line is found. -/
theorem Annotator.completion_typed_counterexample :
    let a : Annotator :=
      { script := { completions := some [.map [("name", .str "foobar")], .map [("name", .str "bar")]] }
        declarations := [] }
    let q : Request := { code := "foo\nbar\n".toList, completions := [.int 4] }
    ∃ r plan tags n, (a.annotate q {}).1 = .ok r ∧ a.reading q = .ok (plan, tags) ∧
      plan.asked.completions = [4] ∧ n ∈ r.notes ∧ n.start = 4 ∧
      n.body = .completion [{ name := "foobar" }] "foo" ∧
      ¬ Text.TypedEnd (q.code.take 4) "foo".toList ∧ Text.TypedEnd (q.code.take 4) "".toList := by
  intro a q
  have hrun : ((a.annotate q {}).1.toOption.map fun r => r.notes.map fun n => (n.start, n.body)) =
      some [(4, .completion [{ name := "foobar" }] "foo")] := by
    decide +kernel
  have hplan : ((a.reading q).toOption.map fun x => x.1.asked.completions) = some [4] := by
    decide +kernel
  obtain ⟨r, hr, hnotes⟩ := Outcome.exists_ok_of_toOption_map hrun
  obtain ⟨⟨plan, tags⟩, hread, hasked⟩ := Outcome.exists_ok_of_toOption_map hplan
  obtain ⟨n, hn, hnote⟩ := List.map_eq_singleton_iff.mp hnotes
  obtain ⟨hstart, hbody⟩ := Prod.mk.inj hnote
  refine ⟨r, plan, tags, n, hr, hread, hasked, ?_, hstart, hbody, ?_, ?_⟩
  · rw [hn]
    exact List.mem_singleton_self n
  · exact fun h => absurd h.suffix (by decide)
  · exact Text.typedEnd_iff.mpr (by decide)

end Marginalia
