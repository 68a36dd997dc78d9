import Marginalia.Proofs.Collected

/-!
# Errors and their causes

An error is caused by a rule whose pattern occurs in the text of a file.  A file has the text of the
last section under its name, but its errors are told to every section under that name.  So an error
stands on its cause when its section is the last of its name; else only if the sample happens to
have the pattern there too.
-/

namespace Marginalia
set_option autoImplicit false

namespace Text

structure Has (cs : List Char) (i : Nat) (piece : List Char) : Prop where
  stop : i + piece.length ≤ cs.length
  eq : (cs.drop i).take piece.length = piece

theorem Has.cons {cs piece : List Char} {i : Nat} (h : Has cs i piece) (c : Char) :
    Has (c :: cs) (i + 1) piece := by
  refine ⟨?_, h.eq⟩
  have hstop := h.stop
  rw [List.length_cons]
  omega

theorem has_zero_of_isPrefixOf {cs piece : List Char} (h : piece.isPrefixOf cs = true) :
    Has cs 0 piece := by
  have hprefix := List.isPrefixOf_iff_prefix.mp h
  refine ⟨?_, ?_⟩
  · rw [Nat.zero_add]
    exact hprefix.length_le
  · exact (List.prefix_iff_eq_take.mp hprefix).symm

theorem Has.within {cs middle piece : List Char} {i j : Nat} (hmiddle : Has cs i middle)
    (h : Has middle j piece) : Has cs (i + j) piece := by
  have houter := hmiddle.stop
  have hinner := h.stop
  refine ⟨by omega, ?_⟩
  calc (cs.drop (i + j)).take piece.length
      = (((cs.drop i).take middle.length).drop j).take piece.length := by
        rw [List.drop_take, List.drop_drop, List.take_take, Nat.min_eq_left (by omega)]
    _ = piece := by rw [hmiddle.eq, h.eq]

theorem between_eq_iff_has {cs piece : List Char} {i : Nat} (h : i + piece.length ≤ cs.length) :
    between cs i (i + piece.length) = piece ↔ Has cs i piece := by
  have hslice : between cs i (i + piece.length) = (cs.drop i).take piece.length := by
    rw [between_of_nonneg (by omega) (by omega), List.drop_take]
    congr 1
    omega
  rw [hslice]
  exact ⟨fun he => ⟨h, he⟩, Has.eq⟩

end Text

theorem Section.PartOf.has {code : List Char} {s : Section} (h : s.PartOf code) :
    Text.Has code s.offset s.content :=
  ⟨h.stop, h.content⟩

namespace Checker

theorem has_of_mem_occurrences {pattern text : List Char} {first skip i : Nat}
    (h : i ∈ occurrences pattern first skip text) :
    ∃ k, i = first + k ∧ Text.Has text k pattern := by
  induction text generalizing first skip with
  | nil =>
    unfold occurrences at h
    split at h
    · next hempty =>
      rw [List.isEmpty_iff.mp hempty]
      exact ⟨0, List.mem_singleton.mp h, Nat.le_refl 0, rfl⟩
    · exact absurd h List.not_mem_nil
  | cons c rest ih =>
    have hlater : ∀ {skip}, i ∈ occurrences pattern (first + 1) skip rest →
        ∃ k, i = first + k ∧ Text.Has (c :: rest) k pattern := by
      intro skip hmem
      obtain ⟨k, hk, hhas⟩ := ih hmem
      exact ⟨k + 1, by omega, hhas.cons c⟩
    unfold occurrences at h
    split at h
    · exact hlater h
    · split at h
      · next hprefix =>
        rcases List.mem_cons.mp h with rfl | h
        · exact ⟨0, rfl, Text.has_zero_of_isPrefixOf hprefix⟩
        · exact hlater h
      · exact hlater h

theorem Rule.diagnostic_ok {path : String} {rule : Rule} {i : Nat} {e : Diagnostic}
    (h : rule.diagnostic path i = .ok e) :
    e.path = path ∧ e.start = i ∧ e.length = rule.pattern.length ∧
      Decode.integer rule.code = .ok e.code ∧ Decode.string rule.message = .ok e.message := by
  unfold Rule.diagnostic at h
  obtain ⟨_, message, hrest, hmessage, rfl⟩ := Checked.seq_eq_ok.mp h
  obtain ⟨_, category, hfirst, -, rfl⟩ := Checked.seq_eq_ok.mp hrest
  obtain ⟨code, hcode, rfl⟩ := Checked.map_eq_ok.mp hfirst
  exact ⟨rfl, rfl, rfl, Checked.under_eq_ok.mp hcode, Checked.under_eq_ok.mp hmessage⟩

/-- Every error of a file is that of a rule at an occurrence of its pattern. -/
theorem exists_of_mem_diagnostics {c : Checker} {path : String} {found : List Diagnostic}
    (h : c.diagnostics path = .ok found) {e : Diagnostic} (he : e ∈ found) :
    ∃ text, c.file? path = some text ∧ ∃ rule ∈ c.rules, ∃ i, Text.Has text i rule.pattern ∧
      rule.diagnostic path i = .ok e := by
  obtain ⟨text, htext, h⟩ := Outcome.bind_eq_ok.mp h
  obtain ⟨lists, hlists, rfl⟩ := Outcome.map_eq_ok.mp h
  have hfile : c.file? path = some text := by
    unfold textOf at htext
    split at htext
    · next content hcontent =>
      rw [hcontent]
      exact congrArg some (Except.ok.inj htext)
    · cases htext
  rw [Sorting.mem_sort_iff] at he
  obtain ⟨list, hlist, he⟩ := List.mem_flatten.mp he
  obtain ⟨rule, hrule, hlist⟩ := Outcome.exists_of_mem_mapM hlists hlist
  obtain ⟨i, hi, hdiagnostic⟩ := Outcome.exists_of_mem_mapM hlist he
  obtain ⟨k, rfl, hhas⟩ := has_of_mem_occurrences hi
  rw [Nat.zero_add] at hdiagnostic
  exact ⟨text, hfile, rule, hrule, k, hhas, Checked.toExcept_eq_ok.mp hdiagnostic⟩

end Checker

/-- Where a collected error comes from: the rule, whose pattern the text of the file has at an index,
and the section that the error is told to.  The text of the file is that of the section `last`. -/
structure Note.CausedBy (n : Note) (sections : List Section) (rules : List Checker.Rule)
    (s last : Section) (rule : Checker.Rule) (i : Nat) : Prop where
  told : s ∈ sections
  file : Section.last? s.path sections = some last
  known : rule ∈ rules
  occurs : Text.Has last.content i rule.pattern
  start : n.start = (s.offset + i : Nat)
  length : n.length = rule.pattern.length
  body : ∃ code id text level, n.body = .error code s.filename id text level ∧
    Decode.integer rule.code = .ok code ∧ Decode.string rule.message = .ok text

namespace Note.CausedBy
variable {code : List Char} {defaultName root : String} {rules : List Checker.Rule} {n : Note}
  {s last : Section} {rule : Checker.Rule} {i : Nat}

theorem stop_le (h : n.CausedBy (Section.split code defaultName root) rules s last rule i) :
    s.offset + i + rule.pattern.length ≤ code.length := by
  have horder := Section.offset_le_last? (Section.split_pairwise code defaultName root) h.told rfl h.file
  have hlast := (Section.partOf_of_mem_split (Section.mem_of_last? h.file).1).stop
  have hoccurs := h.occurs.stop
  omega

theorem has_of_eq (h : n.CausedBy (Section.split code defaultName root) rules s last rule i)
    (hlast : s = last) : Text.Has code (s.offset + i) rule.pattern := by
  subst hlast
  exact (Section.partOf_of_mem_split h.told).has.within h.occurs

end Note.CausedBy

theorem Answered.exists_cause {job : Job} {start plan : Plan} {vocabulary : Flag.Vocabulary}
    {root : String} {code : List Char} {tags errors : List Note} {p : Except Failure Checker}
    (hread : start.read vocabulary root code = .ok (plan, tags))
    (h : diagnosed job plan (p.map (·.holding plan.taken)) = .ok errors) {n : Note} (hn : n ∈ errors) :
    ∃ c, p = .ok c ∧ ∃ s last rule i, n.CausedBy plan.sections c.rules s last rule i := by
  obtain ⟨s, hs, hsource, c', found, hc, hfound, e, he, hnote⟩ := exists_of_mem_errors h hn
  obtain ⟨c, hserving, rfl⟩ := Outcome.map_eq_ok.mp hc
  obtain ⟨text, hfile, rule, hrule, i, hhas, hdiagnostic⟩ :=
    Checker.exists_of_mem_diagnostics hfound he
  obtain ⟨-, hstart, hlength, hcode, hmessage⟩ := Checker.Rule.diagnostic_ok hdiagnostic
  obtain ⟨-, rfl⟩ := Work.errorNote?_eq_some hnote
  have hregisters : plan.registers s = true := Plan.registers_of_isSource hsource
  obtain ⟨last, hlast⟩ := Section.exists_last? hs rfl
  have hrules : (c.holding plan.taken).rules = c.rules :=
    (Prod.mk.inj (Prod.mk.inj (Checker.knowledge_holding c plan.taken)).2).1
  rw [Checker.file?_holding, Plan.last?_taken hread hs hregisters, hlast] at hfile
  obtain rfl : last.content = text := Option.some.inj hfile
  rw [hrules] at hrule
  refine ⟨c, hserving, s, last, rule, i, hs, hlast, hrule, hhas, ?_, hlength, ?_⟩
  · dsimp only
    omega
  · exact ⟨_, _, _, _, rfl, hcode, hmessage⟩

theorem Work.body_of_reported {n : Note} {e : Reported} (h : reported? n = some e) :
    ∃ id level, n.body = .error e.code e.filename id e.text level := by
  unfold reported? at h
  split at h
  · next hbody =>
    cases h
    exact ⟨_, _, hbody⟩
  · cases h

/-- Every error of a result is caused by a rule of the checker.  It stands on the rule's pattern
exactly if the sample has the pattern at the same index of the error's section; the section that is
the last of its name has. -/
theorem Annotator.error_on_cause_iff (a : Annotator) (q : Request) (w : World) (r : Result)
    (h : (a.annotate q w).1 = .ok r) :
    ∃ plan tags, a.reading q = .ok (plan, tags) ∧
      ∀ n ∈ r.notes, ∀ code filename id text level,
        n.body = .error code filename id text level →
        ∃ c s last rule i, w.serving a.slot a.script plan.options = .ok c ∧ s ∈ plan.sections ∧
          s.filename = filename ∧ Section.last? s.path plan.sections = some last ∧
          rule ∈ c.rules ∧ Decode.integer rule.code = .ok code ∧
          Decode.string rule.message = .ok text ∧ n.length = rule.pattern.length ∧
          Text.Has last.content i rule.pattern ∧
          (Text.between r.code n.start (n.start + n.length) = rule.pattern ↔
            Text.Has q.code (s.offset + i) rule.pattern) ∧
          (s = last → Text.between r.code n.start (n.start + n.length) = rule.pattern) := by
  obtain ⟨plan, notes, hcollected, hending⟩ := exists_collected h
  obtain ⟨tags, found, errors, hreading, hfound, herrors, rfl⟩ := collected_ok hcollected
  obtain ⟨start, -, hread⟩ := Outcome.bind_eq_ok.mp hreading
  refine ⟨plan, tags, hreading, ?_⟩
  intro n hn code filename id text level hbody
  obtain ⟨hemit, m, hm, hkept, rfl⟩ := Answered.exists_of_mem_notes hending hn
  have herror : m.body = .error code filename id text level := (plan.body_moved m).symm.trans hbody
  have hmem : m ∈ errors := by
    rcases List.mem_append.mp hm with hm | hm
    · rcases List.mem_append.mp (List.mem_filter.mp hm).1 with hm | hm
      · obtain ⟨_, _, htag⟩ := body_of_mem_tags hreading hm
        rw [htag] at herror
        cases herror
      · obtain ⟨y, -, htells⟩ := Answered.tells_of_mem_populated hemit hfound hm
        cases htells <;> cases herror
    · exact hm
  obtain ⟨c, hc, s, last, rule, i, hcause⟩ := Answered.exists_cause hread herrors hmem
  obtain ⟨code', id', text', level', hbody', hcode, htext⟩ := hcause.body
  obtain ⟨rfl, rfl, rfl, rfl, rfl⟩ := Note.Body.error.inj (hbody'.symm.trans herror)
  have hplaced := hcause
  rw [Plan.sections_eq hread] at hplaced
  have hstop := hplaced.stop_le
  have htag : m.isTag = false := Note.isTag_eq_false fun _ _ htag => by
    rw [herror] at htag
    cases htag
  have hlength : ((plan.moved m).resolve r.code).length = rule.pattern.length :=
    (plan.length_moved m).trans hcause.length
  have hstart := hcause.start
  have hsize := hcause.length
  have hinside : m.start + m.length ≤ (a.job q).code.length := by
    rw [hstart, hsize]
    exact_mod_cast hstop
  have hbetween := Plan.between_moved (Plan.removals_proper hread) htag (by omega) (by omega) hkept
    hinside
  rw [← Answered.code_of_ending hending hemit, hstart, hsize] at hbetween
  have hiff := Text.between_eq_iff_has hstop
  refine ⟨c, s, last, rule, i, hc, hcause.told, rfl, hcause.file, hcause.known, hcode, htext, hlength,
    hcause.occurs, ?_, ?_⟩
  · rw [hlength, ← hiff]
    exact ⟨hbetween.symm.trans, hbetween.trans⟩
  · intro hlast
    rw [hlength]
    exact hbetween.trans (hiff.mpr (hplaced.has_of_eq hlast))

/-- An error behind a cut, in the second of two files. -/
theorem Annotator.error_on_cause_iff_example :
    let a : Annotator :=
      { script := { rules := [⟨"boom".toList, .int 1, .str "no", .int 1⟩] }, declarations := [] }
    let q : Request :=
      { code := "let a\n// ---cut---\n// @filename: b.ts\nlet boom\n".toList
        behaviour := [("errors", .list [.int 1])] }
    let w : World := {}
    ∃ r n, (a.annotate q w).1 = .ok r ∧ n ∈ r.notes ∧
      (∃ id level, n.body = .error 1 "b.ts" id "no" level) ∧
      ∃ plan tags c s last rule i, a.reading q = .ok (plan, tags) ∧
        w.serving a.slot a.script plan.options = .ok c ∧ s ∈ plan.sections ∧ rule ∈ c.rules ∧
        Section.last? s.path plan.sections = some last ∧ Text.Has last.content i rule.pattern ∧
        (Text.between r.code n.start (n.start + n.length) = rule.pattern ↔
          Text.Has q.code (s.offset + i) rule.pattern) := by
  intro a q w
  have hrun : ((a.annotate q w).1.toOption.map fun r => r.notes.map Work.reported?) =
        some [some ⟨1, 23, "b.ts", "no"⟩] := by
    decide +kernel
  obtain ⟨r, hr, hnotes⟩ := Outcome.exists_ok_of_toOption_map hrun
  obtain ⟨n, hn, hreported⟩ := List.map_eq_singleton_iff.mp hnotes
  have hmem : n ∈ r.notes := by
    rw [hn]
    exact List.mem_singleton_self n
  obtain ⟨id, level, hbody⟩ := Work.body_of_reported hreported
  obtain ⟨plan, tags, hread, hall⟩ := error_on_cause_iff a q w r hr
  obtain ⟨c, s, last, rule, i, hc, hs, -, hlast, hrule, -, -, -, hhas, hiff, -⟩ :=
    hall n hmem 1 "b.ts" id "no" level hbody
  exact ⟨r, n, hr, hmem, ⟨id, level, hbody⟩, plan, tags, c, s, last, rule, i, hread, hc,
    hs, hrule, hlast, hhas, hiff⟩

/-- Two sections under one name: the error of the second is also told to the first, where it stands
on a text that no rule knows. -/
theorem Annotator.error_on_cause_counterexample :
    let a : Annotator :=
      { script := { rules := [⟨"boom".toList, .int 1, .str "no", .int 1⟩] }, declarations := [] }
    let q : Request :=
      { code := "// @filename: a.ts\nlet x = 1\n// @filename: a.ts\nboom\n".toList
        behaviour := [("errors", .list [.int 1])] }
    ∃ r, (a.annotate q {}).1 = .ok r ∧ r.plan.behaviour.showEmit = false ∧
      ∃ n ∈ r.notes, (∃ id level, n.body = .error 1 "a.ts" id "no" level) ∧
        Text.between r.code n.start (n.start + n.length) = "let ".toList ∧
        ¬ ∃ rule ∈ a.script.rules,
          Text.between r.code n.start (n.start + n.length) = rule.pattern := by
  intro a q
  have hrun : ((a.annotate q {}).1.toOption.map fun r =>
      (r.plan.behaviour.showEmit, r.notes.head?.bind Work.reported?,
        r.notes.head?.map fun n => Text.between r.code n.start (n.start + n.length))) =
        some (false, some ⟨1, 19, "a.ts", "no"⟩, some "let ".toList) := by
    decide +kernel
  obtain ⟨r, hr, hvalues⟩ := Outcome.exists_ok_of_toOption_map hrun
  simp only [Prod.mk.injEq] at hvalues
  obtain ⟨hemit, hreported, htext⟩ := hvalues
  obtain ⟨n, hn, hreported⟩ := Option.bind_eq_some_iff.mp hreported
  rw [hn] at htext
  have hunder : Text.between r.code n.start (n.start + n.length) = "let ".toList :=
    Option.some.inj htext
  refine ⟨r, hr, hemit, n, List.mem_of_head? hn, Work.body_of_reported hreported, hunder, ?_⟩
  rintro ⟨rule, hrule, heq⟩
  rw [List.mem_singleton.mp hrule, hunder] at heq
  exact absurd heq (by decide)

end Marginalia
