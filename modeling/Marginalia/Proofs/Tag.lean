import Marginalia.Proofs.Bounds
import Marginalia.Proofs.Directive

/-!
# Where tags are left

The note of a tag stands behind the tag's line, which is erased.  It moves on to the first text that
stays, whatever is erased around it, unless a cut reaches over its place.  Such a cut holds the line
of the tag.  The converse fails at the end of a sample: there a cut that goes on to the end does not
reach over the place of a tag on the last line, and the tag is shown although its line is hidden.
-/

namespace Marginalia
set_option autoImplicit false

namespace Span
variable {removals : List Span} (hproper : ∀ s ∈ removals, s.Proper)
include hproper

theorem eraseStart_empty (i : Nat) :
    eraseStart 0 i removals =
      if (merge removals).any (·.encloses i) then lost else Text.countBelow (stays removals) i := by
  have hstrikes : (∃ s ∈ merge removals, s.Strikes i 0) ↔
      (merge removals).any (·.encloses i) = true := by
    simp only [Strikes, Int.add_zero, List.any_eq_true, encloses_iff]
  rcases eraseStart_cases hproper (Int.natCast_nonneg i) (Int.le_refl 0) with
    ⟨hstruck, hlost⟩ | ⟨hfree, -⟩
  · rw [if_pos (hstrikes.mp hstruck), hlost]
  · have hany : ¬ (merge removals).any (·.encloses i) = true :=
      fun h => (hstrikes.mpr h).elim fun s hs => hfree s hs.1 hs.2
    have hkept := (eraseStart_nonneg_iff hproper (Int.natCast_nonneg i) (Int.le_refl 0)).mpr hfree
    have hplace : eraseStart (0 : Nat) i removals = Text.countBelow (stays removals) i :=
      eraseStart_eq_countBelow hproper hkept
    rw [if_neg hany]
    exact hplace

theorem eraseStart_stop {t : Span} (ht : t ∈ merge removals) {i : Nat} (hi : t.encloses i = true) :
    eraseStart 0 t.stop removals = Text.countBelow (stays removals) i := by
  obtain ⟨hstart, hstop⟩ := (encloses_iff t i).mp hi
  obtain ⟨k, hk⟩ := Int.eq_ofNat_of_zero_le (show 0 ≤ t.stop by omega)
  have hany : ¬ (merge removals).any (·.encloses k) = true := by
    rw [Bool.not_eq_true, List.any_eq_false]
    intro s hs
    rw [← hk, encloses_stop_of_mem_merge hproper ht hs]
    exact Bool.false_ne_true
  have hcovered : ∀ j : Nat, i ≤ j → j < i + (k - i) → stays removals j = false := by
    intro j hj hlt
    rw [stays, ← covered_merge, (covered_iff _ _).mpr ⟨t, ht, by omega, by omega⟩]
    rfl
  have hnone := Text.countBelow_add_of_none hcovered
  have hindex : i + (k - i) = k := by omega
  rw [hindex] at hnone
  rw [hk, eraseStart_empty hproper, if_neg hany, hnone]

end Span

namespace Line
variable {code : List Char} {l m : Line}

theorem encloses_span_stop (hl : l ∈ all code) (hm : m ∈ all code) :
    m.span.encloses l.span.stop = false := by
  apply Bool.eq_false_iff.mpr
  intro hover
  have hbounds := (Span.encloses_iff _ _).mp hover
  simp only [span] at hbounds
  rcases eq_or_apart hl hm with rfl | h | h <;> omega

theorem countBelow_stop {removals : List Span} (h : l.span ∈ removals) :
    Text.countBelow (Span.stays removals) (l.start + l.text.length + 1) =
      Text.countBelow (Span.stays removals) l.start := by
  apply Text.countBelow_add_of_none (n := l.text.length + 1)
  intro k hk hlt
  have hin : l.span.start ≤ k ∧ k < l.span.stop := by
    simp only [span]
    omega
  rw [Span.stays, (Span.covered_iff _ _).mpr ⟨l.span, h, hin⟩]
  rfl

end Line

namespace Plan
variable {start plan : Plan} {vocabulary : Flag.Vocabulary} {root : String} {code : List Char}
  {tags : List Note} {cuts : List Span} {l : Line} {n : Note}

theorem any_encloses_span_stop (h : start.read vocabulary root code = .ok (plan, tags))
    (hcuts : Cut.findAll code = .ok cuts) (hl : l ∈ Line.all code) :
    (plan.removals.filter fun r => !(plan.flags.map Flag.span).contains r).any
        (·.encloses l.span.stop) = cuts.any (·.encloses l.span.stop) := by
  obtain ⟨flags, cuts', hflags, hcuts', -, -, rfl⟩ := read_ok h
  obtain rfl : cuts' = cuts := Except.ok.inj (hcuts'.symm.trans hcuts)
  have hflag : ∀ s ∈ flags.map Flag.span, s.encloses l.span.stop = false := by
    intro s hs
    obtain ⟨f, hf, rfl⟩ := List.mem_map.mp hs
    obtain ⟨m, hm, hspan⟩ := Flag.exists_line_of_mem_findAll hflags hf
    rw [hspan]
    exact Line.encloses_span_stop hl hm
  have hmarker : ∀ s ∈ Marker.removals code, s.encloses l.span.stop = false := by
    intro s hs
    obtain ⟨x, hx, rfl⟩ := List.mem_map.mp hs
    exact Line.encloses_span_stop hl (Line.mem_select_iff.mp hx).1
  apply Bool.eq_iff_iff.mpr
  simp only [List.any_eq_true, List.mem_filter, List.mem_append]
  constructor
  · rintro ⟨s, ⟨(hs | hs) | hs, -⟩, hover⟩
    · rw [hflag s hs] at hover
      cases hover
    · exact ⟨s, hs, hover⟩
    · rw [hmarker s hs] at hover
      cases hover
  · rintro ⟨s, hs, hover⟩
    refine ⟨s, ⟨Or.inl (Or.inr hs), ?_⟩, hover⟩
    rw [Bool.not_eq_true', ← Bool.not_eq_true, List.contains_iff_mem]
    intro hmem
    rw [hflag s hmem] at hover
    cases hover

/-- A tag is lost exactly if a cut reaches over the end of its line.  Otherwise as many characters
stand before it as stay of those before its line. -/
theorem settled_tag (h : start.read vocabulary root code = .ok (plan, tags))
    (hcuts : Cut.findAll code = .ok cuts) (hl : l ∈ Line.all code) (hremoved : l.span ∈ plan.removals)
    (htag : n.isTag = true) (hstart : n.start = l.span.stop) (hlength : n.length = 0) :
    (plan.settled n).start =
      if cuts.any (·.encloses l.span.stop) then Span.lost
      else Text.countBelow (Span.stays plan.removals) l.start := by
  have hproper := removals_proper h
  let i := l.start + l.text.length + 1
  have hstop : l.span.stop = (i : Nat) := rfl
  have hline : Text.countBelow (Span.stays plan.removals) i =
      Text.countBelow (Span.stays plan.removals) l.start := Line.countBelow_stop hremoved
  rw [← any_encloses_span_stop h hcuts hl, ← hline]
  unfold settled Work.anchor Note.erase
  rw [htag, hstart]
  dsimp only
  rw [Bool.not_true, Bool.false_or]
  split
  · next hover =>
    obtain ⟨s, hs, hencloses⟩ := List.any_eq_true.mp hover
    obtain ⟨t, ht, hfirst, hlast⟩ := Span.exists_mem_merge (List.mem_filter.mp hs).1
    have hbounds := (Span.encloses_iff _ _).mp hencloses
    have hany : (Span.merge plan.removals).any (·.encloses i) = true :=
      List.any_eq_true.mpr ⟨t, ht, (Span.encloses_iff _ _).mpr ⟨by omega, by omega⟩⟩
    rw [hlength, hstart, hstop, Span.eraseStart_empty hproper, if_pos hany]
  · cases hfind : (Span.merge plan.removals).find? (·.encloses l.span.stop) with
    | none =>
      have hany : ¬ (Span.merge plan.removals).any (·.encloses i) = true := by
        rw [Bool.not_eq_true, List.any_eq_false]
        exact List.find?_eq_none.mp hfind
      dsimp only
      rw [hlength, hstart, hstop, Span.eraseStart_empty hproper, if_neg hany]
    | some t =>
      have hover := List.find?_some (p := fun t : Span => t.encloses l.span.stop) hfind
      dsimp only
      rw [hlength]
      exact Span.eraseStart_stop hproper (List.mem_of_find?_eq_some hfind) hover

end Plan

/-! ## Tags and cuts -/

theorem Line.withoutReturn_prefix (text : List Char) : withoutReturn text <+: text := by
  unfold withoutReturn Text.dropEnding?
  split
  · exact List.take_prefix _ text
  · exact List.prefix_rfl

theorem Cut.isMark_of_marked {line body : List Char} (h : Directive.Marked line body) (mark : Mark) :
    isMark mark line = false := by
  have hslashes := Directive.afterSlashes?_of_marked h
  obtain ⟨gap, -, rfl⟩ := h
  have hindent : ('/' :: '/' :: (gap ++ '@' :: body)).dropWhile isIndent =
      '/' :: '/' :: (gap ++ '@' :: body) := List.dropWhile_cons_of_neg (by decide)
  apply Bool.eq_false_iff.mpr
  intro hmark
  unfold isMark text? at hmark
  rw [hindent, hslashes] at hmark
  obtain ⟨word, -, htext⟩ := List.any_eq_true.mp hmark
  -- What a line that cuts says begins with a dash, and this one with an at sign.
  obtain ⟨rest, hrest⟩ := Line.withoutReturn_prefix ('@' :: body)
  rw [beq_iff_eq.mp htext] at hrest
  simp at hrest

theorem Flag.isMark_of_mem_findAll {v : Vocabulary} {code : List Char} {flags : List Flag}
    (h : findAll v code = .ok flags) {f : Flag} (hf : f ∈ flags) {l : Line} (hl : l ∈ Line.all code)
    (hspan : f.span = l.span) (mark : Cut.Mark) : Cut.isMark mark l.text = false := by
  rcases (mem_findAll_iff h).mp hf with ⟨⟨m, name⟩, hmem, hparse⟩ | ⟨⟨m, name, value⟩, hmem, hparse⟩
  · obtain ⟨hm, hbare⟩ := Line.mem_select_iff.mp hmem
    obtain rfl := Line.eq_of_span_eq hl hm ((span_of_parse hparse).symm.trans hspan)
    obtain ⟨after, hname, -⟩ := Directive.bare?_eq_some_iff.mp hbare
    exact Cut.isMark_of_marked (Directive.flagName?_eq_some_iff.mp hname).1 mark
  · obtain ⟨hm, hvalued⟩ := Line.mem_select_iff.mp (List.mem_filter.mp hmem).1
    obtain rfl := Line.eq_of_span_eq hl hm ((span_of_parse hparse).symm.trans hspan)
    obtain ⟨text, -, hname, -⟩ := Directive.valued?_eq_some_iff.mp hvalued
    exact Cut.isMark_of_marked (Directive.flagName?_eq_some_iff.mp hname).1 mark

namespace Cut
variable {code : List Char} {l m : Line} {mark : Mark}

theorem lt_length_of_lt_stop (hl : l ∈ Line.all code) (hm : m ∈ lines mark code)
    (h : l.span.stop < m.span.stop) : l.start + l.text.length + 1 < code.length := by
  -- A line that cuts is not empty, so a line that ends before it does not end the sample.
  have hall := mem_all_of_mem_lines hm
  have hpos := text_pos_of_mem_lines hm
  have hstop := Line.stop_le_of_mem_all hall
  simp only [Line.span] at h
  rcases Line.eq_or_apart hl hall with rfl | hbefore | hbehind <;> omega

theorem lt_stop_of_start_le (hl : l ∈ Line.all code) (hm : m ∈ lines mark code)
    (hplain : isMark mark l.text = false) (h : l.start ≤ m.start) : l.span.stop < m.span.stop := by
  rcases Line.eq_or_apart hl (mem_all_of_mem_lines hm) with rfl | hbefore | hbehind
  · have hmark := (List.mem_filter.mp hm).2
    rw [hplain] at hmark
    cases hmark
  · simp only [Line.span]
    omega
  · omega

variable {cuts : List Span} (hcuts : findAll code = .ok cuts) (hl : l ∈ Line.all code)
include hcuts hl

theorem holds_of_encloses {s : Span} (hs : s ∈ cuts) (h : s.encloses l.span.stop = true) :
    (s.start ≤ l.span.start ∧ l.span.stop ≤ s.stop) ∧ l.start + l.text.length + 1 < code.length := by
  obtain ⟨hstart, hstop⟩ := (Span.encloses_iff _ _).mp h
  have hfirst : ∀ m ∈ Line.all code, (m.start : Int) < l.span.stop →
      (m.start : Int) ≤ l.span.start := by
    intro m hm hlt
    simp only [Line.span] at hlt ⊢
    rcases Line.eq_or_apart hl hm with rfl | hbefore | hbehind <;> omega
  rcases (mem_findAll_iff hcuts).mp hs with ⟨b, hb, rfl⟩ | ⟨a, ha, rfl⟩ | ⟨b, e, hmem, -, rfl⟩
  · refine ⟨⟨by simp [Line.span], Int.le_of_lt hstop⟩, ?_⟩
    exact lt_length_of_lt_stop hl (List.mem_of_getLast? hb) hstop
  · refine ⟨⟨?_, Int.le_of_lt hstop⟩, ?_⟩
    · exact hfirst a (mem_all_of_mem_lines (List.mem_of_head? ha)) hstart
    · simp only [Line.span] at hstop
      omega
  · obtain ⟨hb, he⟩ := List.of_mem_zip hmem
    refine ⟨⟨?_, Int.le_of_lt hstop⟩, lt_length_of_lt_stop hl he hstop⟩
    exact hfirst b (mem_all_of_mem_lines hb) hstart

theorem exists_encloses_of_hides (hplain : ∀ mark, isMark mark l.text = false)
    (hhides : hides code l = true) (hlt : l.start + l.text.length + 1 < code.length) :
    ∃ s ∈ cuts, s.encloses l.span.stop = true := by
  have hstop : l.span.stop = l.start + l.text.length + 1 := rfl
  simp only [Span.encloses_iff]
  simp only [hides, Bool.or_eq_true, Option.any_eq_true, List.any_eq_true, Bool.and_eq_true,
    decide_eq_true_eq, or_assoc] at hhides
  rcases hhides with ⟨b, hb, hle⟩ | ⟨a, ha, hle⟩ | ⟨⟨b, e⟩, hmem, hfirst, hlast⟩
  · refine ⟨_, (mem_findAll_iff hcuts).mpr (Or.inl ⟨b, hb, rfl⟩), ?_, ?_⟩
    · dsimp only
      omega
    · exact lt_stop_of_start_le hl (List.mem_of_getLast? hb) (hplain _) hle
  · refine ⟨_, (mem_findAll_iff hcuts).mpr (Or.inr (Or.inl ⟨a, ha, rfl⟩)), ?_, ?_⟩
    · dsimp only
      omega
    · dsimp only
      omega
  · have horder : b.start ≤ e.start := Nat.le_trans hfirst hlast
    refine ⟨_, (mem_findAll_iff hcuts).mpr (Or.inr (Or.inr ⟨b, e, hmem, horder, rfl⟩)), ?_, ?_⟩
    · have hstart : b.span.start = b.start := rfl
      dsimp only at hfirst ⊢
      omega
    · exact lt_stop_of_start_le hl (List.of_mem_zip hmem).2 (hplain _) hlast

theorem any_encloses_iff (hplain : ∀ mark, isMark mark l.text = false) (hhides : hides code l = true) :
    cuts.any (·.encloses l.span.stop) = true ↔ l.start + l.text.length + 1 < code.length := by
  rw [List.any_eq_true]
  constructor
  · rintro ⟨s, hs, hover⟩
    exact (holds_of_encloses hcuts hl hs hover).2
  · exact exists_encloses_of_hides hcuts hl hplain hhides

end Cut

/-! ## Tags of a result -/

/-- What a result says of a tag. -/
structure Note.Tag where
  start : Int
  length : Int
  name : String
  text : Option String
deriving DecidableEq

def Note.tag? (n : Note) : Option Note.Tag :=
  match n.body with
  | .tag name text => some ⟨n.start, n.length, name, text⟩
  | _ => none

theorem Note.tag?_eq_none {n : Note} (h : ∀ name text, n.body ≠ .tag name text) :
    n.tag? = none := by
  unfold tag?
  split
  · next name text hbody => exact absurd hbody (h name text)
  · rfl

namespace Flag

/-- The flag is a tag, and no cut reaches over the end of its line. -/
def shows (cuts : List Span) (f : Flag) : Bool :=
  f.kind == .tag && !cuts.any (·.encloses f.span.stop)

theorem shows_iff {cuts : List Span} {f : Flag} (h : f.kind = .tag) :
    f.shows cuts = true ↔ ¬ cuts.any (·.encloses f.span.stop) = true := by
  rw [shows, beq_iff_eq.mpr h, Bool.true_and, Bool.not_eq_true', Bool.not_eq_true]

end Flag

namespace Plan

/-- The tag of a flag in a result: as many characters stand before it as stay of those before the
line of the flag. -/
def tagOf (plan : Plan) (f : Flag) : Note.Tag :=
  ⟨Text.countBelow (Span.stays plan.removals) f.span.start.toNat, 0, f.name, f.text?⟩

def tagLeft? (plan : Plan) (n : Note) : Option Note.Tag :=
  if 0 ≤ (plan.settled n).start then (plan.settled n).tag? else none

theorem filterMap_tagLeft_eq_nil (plan : Plan) {notes : List Note}
    (h : ∀ n ∈ notes, ∀ name text, n.body ≠ .tag name text) : notes.filterMap plan.tagLeft? = [] := by
  refine List.filterMap_eq_nil_iff.mpr fun n hn => ?_
  unfold tagLeft?
  rw [Note.tag?_eq_none (by rw [body_settled]; exact h n hn), ite_self]

section Read
variable {start plan : Plan} {vocabulary : Flag.Vocabulary} {root : String} {code : List Char}
  {tags : List Note} (h : start.read vocabulary root code = .ok (plan, tags))
include h

theorem tagLeft?_of_mem_flags {cuts : List Span} (hcuts : Cut.findAll code = .ok cuts) {f : Flag}
    (hf : f ∈ plan.flags) :
    (tagNote? f).bind plan.tagLeft? = if f.shows cuts then some (plan.tagOf f) else none := by
  rw [tagNote?_eq]
  unfold Flag.shows
  by_cases hkind : f.kind = .tag
  · obtain ⟨l, hl, hspan, hremoved⟩ := line_of_mem_flags h hf
    let n : Note := { start := l.span.stop, length := 0, body := .tag f.name f.text? }
    have hsettled := settled_tag (n := n) h hcuts hl hremoved rfl rfl rfl
    have htag : (plan.settled n).tag? = some ⟨(plan.settled n).start, 0, f.name, f.text?⟩ := by
      unfold Note.tag?
      rw [body_settled, length_settled]
    have hplace : plan.tagOf f =
        ⟨Text.countBelow (Span.stays plan.removals) l.start, 0, f.name, f.text?⟩ := by
      unfold tagOf
      rw [hspan]
      rfl
    rw [if_pos hkind, beq_iff_eq.mpr hkind, Bool.true_and, hspan, hplace, Option.bind_some]
    unfold tagLeft?
    rw [htag, hsettled]
    cases cuts.any (·.encloses l.span.stop) with
    | true => rfl
    | false => exact if_pos (Int.natCast_nonneg _)
  · simp [hkind]

theorem filterMap_tagLeft {cuts : List Span} (hcuts : Cut.findAll code = .ok cuts)
    (keeps : Note → Bool) :
    ((plan.flags.filterMap tagNote?).filter keeps).filterMap plan.tagLeft? =
      (plan.flags.filter fun f => f.shows cuts && (tagNote? f).any keeps).map plan.tagOf := by
  rw [List.filter_filterMap, List.filterMap_filterMap, ← List.filterMap_eq_map, List.filterMap_filter]
  apply List.filterMap_congr
  intro f hf
  have hleft := tagLeft?_of_mem_flags h hcuts hf
  cases hnote : tagNote? f with
  | none => simp
  | some n =>
    rw [hnote, Option.bind_some] at hleft
    cases hkept : keeps n with
    | true => simpa [Option.filter_some, hkept] using hleft
    | false => simp [Option.filter_some, hkept]

end Read

end Plan

theorem Plan.standing_eq_settled (plan : Plan) (hemit : plan.behaviour.showEmit = false)
    (hkeep : plan.behaviour.keepNotations = false) (notes : List Note) :
    plan.standing notes = notes.map plan.settled := by
  have hmoved : plan.moved = plan.settled := by
    funext n
    unfold moved
    rw [hkeep, if_neg Bool.false_ne_true]
  unfold standing
  rw [hemit, if_neg Bool.false_ne_true, hmoved]

theorem Answered.Tells.not_tag {job : Job} {plan : Plan} {s : Section} {xs : List Identifier} {n : Note}
    (h : Tells job plan s xs n) (name : String) (text : Option String) : n.body ≠ .tag name text := by
  cases h <;> nofun

namespace Annotator
variable {a : Annotator} {q : Request} {w : World} {r : Result}

/-- The tags of a result are, apart from their order, those of the flags that show and whose notes
the caller keeps. -/
theorem exists_tag_perm (h : (a.annotate q w).1 = .ok r)
    (hemit : r.plan.behaviour.showEmit = false) (hkeep : r.plan.behaviour.keepNotations = false) :
    ∃ start plan tags cuts, a.plan q = .ok start ∧
      start.read (a.job q).vocabulary a.root q.code = .ok (plan, tags) ∧
      Cut.findAll q.code = .ok cuts ∧ r.code = Span.keptText plan.removals q.code ∧
      (r.notes.filterMap Note.tag?).Perm
        ((plan.flags.filter fun f => f.shows cuts && (Plan.tagNote? f).any (a.job q).keeps).map
          plan.tagOf) := by
  obtain ⟨plan, notes, hcollected, hending⟩ := exists_collected h
  obtain ⟨tags, found, errors, hreading, hfound, herrors, rfl⟩ := collected_ok hcollected
  obtain ⟨start, hstart, hread⟩ := Outcome.bind_eq_ok.mp hreading
  obtain ⟨flags, cuts, -, hcuts, -, rfl, hplan⟩ := Plan.read_ok hread
  obtain rfl : plan.flags = flags := by rw [hplan]; rfl
  rw [Answered.behaviour_of_ending hending] at hemit hkeep
  refine ⟨start, plan, _, cuts, hstart, hread, hcuts, ?_, ?_⟩
  · rw [Answered.code_of_ending hending hemit]
    unfold Plan.shownText
    rw [hkeep, if_neg Bool.false_ne_true]
    exact Span.eraseText_eq_keptText (Plan.removals_proper hread) q.code
  · have hnone : (found.filter (a.job q).keeps).filterMap plan.tagLeft? = [] := by
      apply plan.filterMap_tagLeft_eq_nil
      intro n hn
      obtain ⟨y, -, htells⟩ :=
        Answered.tells_of_mem_populated hemit hfound (List.mem_filter.mp hn).1
      exact htells.not_tag
    have herror : errors.filterMap plan.tagLeft? = [] := by
      apply plan.filterMap_tagLeft_eq_nil
      intro n hn name text hbody
      obtain ⟨_, _, _, _, _, herror⟩ := Answered.body_of_mem_errors herrors hn
      rw [herror] at hbody
      cases hbody
    have hall : ((plan.flags.filterMap Plan.tagNote? ++ found).filter (a.job q).keeps ++
        errors).filterMap plan.tagLeft? =
          (plan.flags.filter fun f => f.shows cuts && (Plan.tagNote? f).any (a.job q).keeps).map
            plan.tagOf := by
      rw [List.filterMap_append, List.filter_append, List.filterMap_append, hnone, herror,
        List.append_nil, List.append_nil, Plan.filterMap_tagLeft hread hcuts]
    have hperm := Note.filterMap_resolveAll_perm (g := Note.tag?) (fun _ _ => rfl) r.code
      (((plan.flags.filterMap Plan.tagNote? ++ found).filter (a.job q).keeps ++ errors).map
        plan.settled)
    rw [List.filterMap_map] at hperm
    rw [Answered.notes_of_ending hending, plan.standing_eq_settled hemit hkeep, ← hall]
    exact hperm

end Annotator

/-- The tags of a result are, apart from their order, one for each flag that is a tag and that no cut
reaches over.  That holds of every tag whose line lies in no cut.  As many characters stand before
such a tag as are kept of those before its line, and behind it stands what is kept of the text behind
the line. -/
theorem Annotator.tags_perm (a : Annotator) (q : Request) (w : World) (r : Result)
    (h : (a.annotate q w).1 = .ok r)
    (hemit : r.plan.behaviour.showEmit = false) (hkeep : r.plan.behaviour.keepNotations = false)
    (hkept : (a.job q).kept = none) :
    ∃ plan tags cuts, a.reading q = .ok (plan, tags) ∧
      Flag.findAll (a.job q).vocabulary q.code = .ok plan.flags ∧ Cut.findAll q.code = .ok cuts ∧
      r.code = Span.keptText plan.removals q.code ∧
      (r.notes.filterMap Note.tag?).Perm ((plan.flags.filter (Flag.shows cuts)).map plan.tagOf) ∧
      ∀ f ∈ plan.flags, f.kind = .tag →
        (∀ s ∈ cuts, ¬ (s.start ≤ f.span.start ∧ f.span.stop ≤ s.stop)) →
        f.shows cuts = true ∧ ∃ l ∈ Line.all q.code, f.span = l.span ∧
          (plan.tagOf f).start = Text.countBelow (Span.stays plan.removals) l.start ∧
          r.code.drop (Text.countBelow (Span.stays plan.removals) l.start) =
            Text.keepFrom (Span.stays plan.removals) (l.start + l.text.length + 1)
              (q.code.drop (l.start + l.text.length + 1)) := by
  obtain ⟨start, plan, tags, cuts, hstart, hread, hcuts, hcode, hperm⟩ :=
    exists_tag_perm h hemit hkeep
  have hreading : a.reading q = .ok (plan, tags) := Outcome.bind_eq_ok.mpr ⟨start, hstart, hread⟩
  refine ⟨plan, tags, cuts, hreading, Plan.findAll_flags hread, hcuts, hcode, ?_, ?_⟩
  · have hall : ∀ f ∈ plan.flags,
        (f.shows cuts && (Plan.tagNote? f).any (a.job q).keeps) = f.shows cuts := by
      intro f _
      unfold Job.keeps
      rw [hkept, Plan.tagNote?_eq]
      by_cases hkind : f.kind = .tag
      · simp [hkind]
      · simp [Flag.shows, hkind]
    rw [List.filter_congr hall] at hperm
    exact hperm
  · intro f hf hkind hout
    obtain ⟨l, hl, hspan, hremoved⟩ := Plan.line_of_mem_flags hread hf
    refine ⟨?_, l, hl, hspan, ?_, ?_⟩
    · rw [Flag.shows_iff hkind, hspan]
      intro hover
      obtain ⟨s, hs, hencloses⟩ := List.any_eq_true.mp hover
      apply hout s hs
      rw [hspan]
      exact (Cut.holds_of_encloses hcuts hl hs hencloses).1
    · unfold Plan.tagOf
      rw [hspan]
      rfl
    · rw [hcode, ← Line.countBelow_stop hremoved]
      exact Text.drop_keepFrom q.code _

/-- A tag between a marker and a hidden block, behind which it is left. -/
theorem Annotator.tags_perm_example :
    let a : Annotator :=
      { script := { quickInfo := [("a", .str "let a")] }, tags := ["log"], declarations := [] }
    let q : Request := { code := ("let a\n//  ^?\n// @log: hi\n// ---cut-start---\nlet b\n" ++
      "// ---cut-end---\nlet c\n").toList }
    ∃ r plan tags cuts f, (a.annotate q {}).1 = .ok r ∧
      r.plan.behaviour.showEmit = false ∧ r.plan.behaviour.keepNotations = false ∧
      (a.job q).kept = none ∧ a.reading q = .ok (plan, tags) ∧ Cut.findAll q.code = .ok cuts ∧
      f ∈ plan.flags ∧ f.kind = .tag ∧
      (∀ s ∈ cuts, ¬ (s.start ≤ f.span.start ∧ f.span.stop ≤ s.stop)) ∧
      r.notes.filterMap Note.tag? = [⟨6, 0, "log", some "hi"⟩] ∧
      (r.notes.filterMap Note.tag?).Perm ((plan.flags.filter (Flag.shows cuts)).map plan.tagOf) ∧
      f.shows cuts = true ∧ r.code.drop 6 = "let c\n".toList := by
  intro a q
  have hrun : ((a.annotate q {}).1.toOption.map fun r => (r.plan.behaviour.showEmit,
      r.plan.behaviour.keepNotations, r.notes.filterMap Note.tag?, r.code.drop 6)) =
        some (false, false, [⟨6, 0, "log", some "hi"⟩], "let c\n".toList) := by
    decide +kernel
  have hplan : ((a.reading q).toOption.map fun x => x.1.flags.map fun f => (f.kind, f.span)) =
      some [(.tag, ⟨13, 25⟩)] := by
    decide +kernel
  obtain ⟨r, hr, hvalues⟩ := Outcome.exists_ok_of_toOption_map hrun
  simp only [Prod.mk.injEq] at hvalues
  obtain ⟨hemit, hkeep, htags, hbehind⟩ := hvalues
  obtain ⟨plan, tags, cuts, hread, -, hcuts, -, hperm, hshown⟩ :=
    tags_perm a q {} r hr hemit hkeep rfl
  have hcut : cuts = [⟨25, 67⟩] := by
    have hfound : Cut.findAll q.code = .ok [⟨25, 67⟩] := rfl
    exact Except.ok.inj (hcuts.symm.trans hfound)
  rw [hread] at hplan
  obtain ⟨f, hflags, hvalues⟩ := List.map_eq_singleton_iff.mp (Option.some.inj hplan)
  obtain ⟨hkind, hspan⟩ := Prod.mk.inj hvalues
  have hf : f ∈ plan.flags := by
    rw [hflags]
    exact List.mem_singleton_self f
  have hout : ∀ s ∈ cuts, ¬ (s.start ≤ f.span.start ∧ f.span.stop ≤ s.stop) := by
    rw [hcut, hspan]
    decide
  exact ⟨r, plan, tags, cuts, f, hr, hemit, hkeep, rfl, hread, hcuts, hf, hkind, hout, htags,
    hperm, (hshown f hf hkind hout).1, hbehind⟩

/-- A tag on a line that is hidden by a cut is shown exactly if nothing stands behind the line, which
is so for the last line of a sample whose end is cut. -/
theorem Annotator.hidden_tag_shows_iff (a : Annotator) (q : Request) (w : World) (r : Result)
    (h : (a.annotate q w).1 = .ok r)
    (hemit : r.plan.behaviour.showEmit = false) (hkeep : r.plan.behaviour.keepNotations = false) :
    ∃ plan tags cuts, a.reading q = .ok (plan, tags) ∧
      Flag.findAll (a.job q).vocabulary q.code = .ok plan.flags ∧ Cut.findAll q.code = .ok cuts ∧
      (r.notes.filterMap Note.tag?).Perm
        ((plan.flags.filter fun f => f.shows cuts && (Plan.tagNote? f).any (a.job q).keeps).map
          plan.tagOf) ∧
      ∀ f ∈ plan.flags, f.kind = .tag → ∀ l ∈ Line.all q.code, f.span = l.span →
        Cut.hides q.code l = true →
        (f.shows cuts = true ↔ q.code.length ≤ l.start + l.text.length + 1) := by
  obtain ⟨start, plan, tags, cuts, hstart, hread, hcuts, -, hperm⟩ :=
    exists_tag_perm h hemit hkeep
  have hreading : a.reading q = .ok (plan, tags) := Outcome.bind_eq_ok.mpr ⟨start, hstart, hread⟩
  refine ⟨plan, tags, cuts, hreading, Plan.findAll_flags hread, hcuts, hperm, ?_⟩
  intro f hf hkind l hl hspan hhides
  have hplain := Flag.isMark_of_mem_findAll (Plan.findAll_flags hread) hf hl hspan
  have hover := Cut.any_encloses_iff hcuts hl hplain hhides
  rw [Flag.shows_iff hkind, hspan, hover]
  omega

/-- A tag above a cut is lost. -/
theorem Annotator.hidden_tag_shows_iff_example :
    let a : Annotator := { tags := ["log"], declarations := [] }
    let q : Request := { code := "// @log\n// ---cut---\nlet a\n".toList }
    ∃ r plan tags cuts f, (a.annotate q {}).1 = .ok r ∧
      r.plan.behaviour.showEmit = false ∧ r.plan.behaviour.keepNotations = false ∧
      a.reading q = .ok (plan, tags) ∧ Cut.findAll q.code = .ok cuts ∧ f ∈ plan.flags ∧
      f.kind = .tag ∧ ⟨0, "// @log".toList⟩ ∈ Line.all q.code ∧
      f.span = (⟨0, "// @log".toList⟩ : Line).span ∧
      Cut.hides q.code ⟨0, "// @log".toList⟩ = true ∧
      (f.shows cuts = true ↔ q.code.length ≤ 8) ∧ r.notes.filterMap Note.tag? = [] := by
  intro a q
  have hrun : ((a.annotate q {}).1.toOption.map fun r => (r.plan.behaviour.showEmit,
      r.plan.behaviour.keepNotations, r.notes.filterMap Note.tag?)) =
        some (false, false, []) := by
    decide +kernel
  have hplan : ((a.reading q).toOption.map fun x => x.1.flags.map fun f => (f.kind, f.span)) =
      some [(.tag, ⟨0, 8⟩)] := by
    decide +kernel
  obtain ⟨r, hr, hvalues⟩ := Outcome.exists_ok_of_toOption_map hrun
  simp only [Prod.mk.injEq] at hvalues
  obtain ⟨hemit, hkeep, htags⟩ := hvalues
  obtain ⟨plan, tags, cuts, hread, -, hcuts, -, hshown⟩ :=
    hidden_tag_shows_iff a q {} r hr hemit hkeep
  rw [hread] at hplan
  obtain ⟨f, hflags, hvalues⟩ := List.map_eq_singleton_iff.mp (Option.some.inj hplan)
  obtain ⟨hkind, hspan⟩ := Prod.mk.inj hvalues
  have hf : f ∈ plan.flags := by
    rw [hflags]
    exact List.mem_singleton_self f
  have hline : (⟨0, "// @log".toList⟩ : Line) ∈ Line.all q.code := by decide
  have hhides : Cut.hides q.code ⟨0, "// @log".toList⟩ = true := by decide
  exact ⟨r, plan, tags, cuts, f, hr, hemit, hkeep, hread, hcuts, hf, hkind, hline, hspan,
    hhides, hshown f hf hkind _ hline hspan hhides, htags⟩

/-- The end of the sample is cut, and the tag on its last line is shown. -/
theorem Annotator.hidden_tag_shows_counterexample :
    let a : Annotator := { tags := ["log"] }
    let q : Request := { code := "let a\n// ---cut-after---\n// @log\n".toList }
    ∃ r plan tags cuts f, (a.annotate q {}).1 = .ok r ∧ r.plan.behaviour.showEmit = false ∧
      r.plan.behaviour.keepNotations = false ∧ a.reading q = .ok (plan, tags) ∧
      plan.flags = [f] ∧ f.kind = .tag ∧ Cut.findAll q.code = .ok cuts ∧
      (∃ s ∈ cuts, s.start ≤ f.span.start ∧ f.span.stop ≤ s.stop) ∧
      r.notes.filterMap Note.tag? = [⟨6, 0, "log", none⟩] := by
  intro a q
  have hrun : ((a.annotate q {}).1.toOption.map fun r => (r.plan.behaviour.showEmit,
      r.plan.behaviour.keepNotations, r.notes.filterMap Note.tag?)) =
        some (false, false, [⟨6, 0, "log", none⟩]) := by
    decide +kernel
  have hplan : ((a.reading q).toOption.map fun x => x.1.flags.map fun f => (f.kind, f.span)) =
      some [(.tag, ⟨25, 33⟩)] := by
    decide +kernel
  have hcuts : Cut.findAll q.code = .ok [⟨6, 33⟩] := rfl
  obtain ⟨r, hr, hvalues⟩ := Outcome.exists_ok_of_toOption_map hrun
  simp only [Prod.mk.injEq] at hvalues
  obtain ⟨hemit, hkeep, htags⟩ := hvalues
  obtain ⟨⟨plan, tags⟩, hread, hvalues⟩ := Outcome.exists_ok_of_toOption_map hplan
  obtain ⟨f, hflags, hvalues⟩ := List.map_eq_singleton_iff.mp hvalues
  obtain ⟨hkind, hspan⟩ := Prod.mk.inj hvalues
  refine ⟨r, plan, tags, _, f, hr, hemit, hkeep, hread, hflags, hkind, hcuts, ?_, htags⟩
  rw [hspan]
  exact ⟨⟨6, 33⟩, List.mem_singleton_self _, by decide, by decide⟩

end Marginalia
