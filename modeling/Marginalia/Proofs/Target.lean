import Marginalia.Proofs.Identifier
import Marginalia.Proofs.KeptLines
import Marginalia.Proofs.Section

/-!
# Notes stand on their targets

Hovers and highlights name an identifier as their target.  From the place of the identifier in its
section, over the place of the section in the sample, to the place in the result, the text under
such a note is its target.
-/

namespace Marginalia
set_option autoImplicit false

namespace Note

/-- The spelling that a hover or a highlight stands on.  A query has a target too, but stands at its
caret. -/
def spelled? (n : Note) : Option String :=
  match n.body with
  | .hover info => some info.target
  | .highlight info _ => some info.target
  | _ => none

def Placed (code : List Char) (n : Note) : Prop :=
  ∀ t, n.spelled? = some t → 0 ≤ n.start ∧ 0 ≤ n.length ∧ n.start + n.length ≤ code.length ∧
    Text.between code n.start (n.start + n.length) = t.toList

theorem placed_of_spelled?_eq_none {code : List Char} {n : Note} (h : n.spelled? = none) :
    n.Placed code := by
  intro t ht
  rw [h] at ht
  cases ht

theorem placed_of_standsIn {code : List Char} {x : Identifier} (h : x.StandsIn code) {n : Note}
    (hstart : n.start = x.span.start) (hlength : n.length = x.text.length)
    (hspelled : n.spelled? = some (String.ofList x.text)) : n.Placed code := by
  intro t ht
  obtain ⟨first, hspan, hle, htext⟩ := h
  have hfirst : n.start = first := hstart.trans (congrArg Span.start hspan)
  obtain rfl : String.ofList x.text = t := Option.some.inj (hspelled.symm.trans ht)
  refine ⟨by omega, by omega, by omega, ?_⟩
  rw [Text.between_of_nonneg (by omega) (by omega), hfirst, hlength, String.toList_ofList]
  have hstop : ((first : Int) + (x.text.length : Int)).toNat = first + x.text.length := by omega
  rw [hstop, Int.toNat_natCast, List.drop_take, Nat.add_sub_cancel_left]
  exact htext

theorem Placed.between_erase {code : List Char} {removals : List Span} {n : Note} {t : String}
    (h : n.Placed code) (hproper : ∀ s ∈ removals, s.Proper)
    (hkept : 0 ≤ (n.erase removals).start) (ht : n.spelled? = some t) :
    Text.between (Span.eraseText code removals) (n.erase removals).start
      ((n.erase removals).start + n.length) = t.toList := by
  obtain ⟨hstart, hlength, hstop, htext⟩ := h t ht
  exact (Span.between_eraseText hproper hstart hlength hkept hstop).trans htext

theorem mem_resolveAll {code : List Char} {notes : List Note} {n : Note}
    (h : n ∈ resolveAll code notes) : ∃ m ∈ notes, 0 ≤ m.start ∧ n = m.resolve code := by
  obtain ⟨m, hm, rfl⟩ := List.mem_map.mp h
  rw [Sorting.mem_sort_iff] at hm
  obtain ⟨hmem, hstart⟩ := List.mem_filter.mp hm
  exact ⟨m, hmem, of_decide_eq_true hstart, rfl⟩

end Note

namespace Plan

/-- The identifiers of a section are asked for: for its hovers, or because a query or a highlight
points into it. -/
def asksFor (p : Plan) (s : Section) : Bool :=
  !p.behaviour.noStaticSemanticInfo || !(p.asked.queries.filter s.contains).isEmpty ||
    !(p.asked.highlights.filter fun h => s.contains h.span.start).isEmpty

def parses (p : Plan) (s : Section) : Bool :=
  p.asksFor s && (Language.grammar? s.extension).isSome

theorem placed_of_tagNote {code : List Char} {f : Flag} {n : Note} (h : tagNote? f = some n) :
    n.Placed code := by
  obtain ⟨-, rfl⟩ := tagNote?_eq_some h
  exact Note.placed_of_spelled?_eq_none rfl

/-- The sections that are parsed, in the order of their parses. -/
def parsed (p : Plan) : List Section :=
  if p.behaviour.showEmit then [] else (p.sections.filter p.registers).filter p.parses

end Plan

/-- Each of the supplied trees keeps within the text of the section that it is taken for. -/
def Tree.Fit (trees : Option (List Tree)) (sections : List Section) : Prop :=
  ∀ ts, trees = some ts → ∀ x ∈ ts.zip sections, x.1.Within x.2.content

namespace Tree.Fit

theorem head {t : Tree} {ts : List Tree} {s : Section} {sections : List Section}
    (h : Fit (some (t :: ts)) (s :: sections)) : t.Within s.content :=
  h _ rfl (t, s) List.mem_cons_self

theorem tail {t : Tree} {ts : List Tree} {s : Section} {sections : List Section}
    (h : Fit (some (t :: ts)) (s :: sections)) : Fit (some ts) sections := by
  rintro ts' ⟨⟩ x hx
  exact h _ rfl x (List.mem_cons_of_mem (t, s) hx)

end Tree.Fit

theorem World.identifiers_ok {w w' : World} {s : Section} {rest : List Section}
    {xs : List Identifier} (h : w.identifiers s.content s.extension = (.ok xs, w'))
    (hgrammar : (Language.grammar? s.extension).isSome = true) (hfit : Tree.Fit w.trees (s :: rest)) :
    (∀ x ∈ xs, x.StandsIn s.content) ∧ Tree.Fit w'.trees rest := by
  unfold identifiers at h
  obtain ⟨grammar, hg⟩ := Option.isSome_iff_exists.mp hgrammar
  rw [hg] at h
  dsimp only at h
  cases htrees : w.trees with
  | none =>
    rw [htrees] at h
    cases h
    refine ⟨?_, fun ts hts => ?_⟩
    · split
      · intro x hx
        exact absurd hx List.not_mem_nil
      · exact Token.standsIn_of_mem_identifiers
    · rw [htrees] at hts
      cases hts
  | some ts =>
    rw [htrees] at h hfit
    cases ts with
    | nil => cases h
    | cons t ts =>
      obtain ⟨hfound, rfl⟩ := Prod.mk.inj h
      rw [Tree.identifiers_eq_preorder] at hfound
      have hok : t.preorder s.content = .ok xs := by
        cases hx : t.preorder s.content with
        | ok ys =>
          rw [hx] at hfound
          cases hfound
          rfl
        | error e =>
          rw [hx] at hfound
          cases hfound
      exact ⟨Tree.standsIn_of_mem_preorder hfit.head hok, hfit.tail⟩

namespace Work

def Same (d₀ d : Draft) : Prop := d.notes = d₀.notes ∧ d.world.trees = d₀.world.trees

theorem Reaches.trees_eq {job : Job} {plan : Plan} {d : Draft} {n : Nat} {w : World}
    (h : Reaches job plan d n w) : w.trees = d.world.trees := by
  rcases h with ⟨-, rfl⟩ | ⟨-, hacquire⟩
  · rfl
  · rcases World.acquire_ok hacquire with ⟨-, rfl⟩ | ⟨-, -, htrees, -⟩
    · rfl
    · exact htrees

section Collect
variable {job : Job} {plan : Plan} {s : Section} {d₀ : Draft} {code : List Char}

theorem meets_perform (call : Checker.Call) :
    Meets (Same d₀) (perform job plan call) (fun _ => Same d₀) fun _ _ => True := by
  refine Meets.of_exec_ok fun d answer d' hsame hrun => ?_
  obtain ⟨n, w, w', hreach, hcall, rfl⟩ := perform_ok hrun
  have htrees : w'.trees = w.trees := (congrArg (World.trees ∘ Prod.snd) hcall).symm
  exact ⟨hsame.1, htrees.trans (hreach.trees_eq.trans hsame.2)⟩

theorem meets_isWanted (x : Identifier) :
    Meets (Same d₀) (isWanted job s x) (fun _ => Same d₀) fun _ _ => True := by
  unfold isWanted
  split
  · exact Meets.of_pure fun d hd => hd
  · refine Meets.bind (Meets.of_modify fun d hd => ?_) fun _ => Meets.of_pure fun d hd => hd
    exact hd

theorem meets_hover {x : Identifier} (hx : x.StandsIn code) :
    Meets (Same d₀) (hover? job plan s x)
      (fun o d => Same d₀ d ∧ ∀ n ∈ o, n.Placed code) fun _ _ => True := by
  have hnone : ∀ d, Same d₀ d → Same d₀ d ∧ ∀ n ∈ (none : Option Note), n.Placed code :=
    fun d hd => ⟨hd, by simp⟩
  unfold hover?
  split
  · exact Meets.of_pure hnone
  refine Meets.bind (meets_isWanted x) fun wanted => ?_
  split
  · exact Meets.of_pure hnone
  refine Meets.bind (meets_perform _) fun found => ?_
  split
  · exact Meets.of_pure hnone
  · refine Meets.of_pure fun d hd => ⟨hd, ?_⟩
    rintro n ⟨⟩
    exact Note.placed_of_standsIn hx rfl rfl rfl

theorem meets_query {xs : List Identifier} (i : Int) :
    Meets (Same d₀) (query job plan s xs i)
      (fun n d => Same d₀ d ∧ n.Placed code) fun _ _ => True := by
  unfold query
  split
  · exact Meets.of_throw fun _ _ => trivial
  refine Meets.bind (meets_perform _) fun found => ?_
  split
  · exact Meets.of_throw fun _ _ => trivial
  · exact Meets.of_pure fun d hd => ⟨hd, Note.placed_of_spelled?_eq_none rfl⟩

theorem meets_highlighted (h : Highlight) {x : Identifier} (hx : x.StandsIn code) :
    Meets (Same d₀) (highlighted? job plan s h x)
      (fun o d => Same d₀ d ∧ ∀ n ∈ o, n.Placed code) fun _ _ => True := by
  unfold highlighted?
  split
  · exact Meets.of_pure fun d hd => ⟨hd, by simp⟩
  refine Meets.bind (meets_perform _) fun found => ?_
  split
  · exact Meets.of_pure fun d hd => ⟨hd, by simp⟩
  · refine Meets.of_pure fun d hd => ⟨hd, ?_⟩
    rintro n ⟨⟩
    exact Note.placed_of_standsIn hx rfl rfl rfl

theorem meets_highlight (h : Highlight) {xs : List Identifier} (hxs : ∀ x ∈ xs, x.StandsIn code) :
    Meets (Same d₀) (highlight job plan s xs h)
      (fun notes d => Same d₀ d ∧ ∀ n ∈ notes, n.Placed code) fun _ _ => True := by
  unfold highlight
  refine Meets.bind (Meets.filterMapM fun x hx => meets_highlighted h (hxs x hx)) fun notes => ?_
  split
  · exact Meets.bind (Meets.of_throw fun _ _ => trivial) fun _ => Meets.of_pure fun _ hd => hd
  · exact Meets.of_pure fun _ hd => hd

theorem meets_completion (i : Int) :
    Meets (Same d₀) (completion? job plan s i)
      (fun o d => Same d₀ d ∧ ∀ n ∈ o, n.Placed code) fun _ _ => True := by
  unfold completion?
  split
  · exact Meets.of_pure fun d hd => ⟨hd, by simp⟩
  refine Meets.bind (meets_perform _) fun offered => ?_
  dsimp only
  split
  · exact Meets.bind (Meets.of_throw fun _ _ => trivial) fun _ => Meets.of_pure fun _ => False.elim
  · refine Meets.of_pure fun d hd => ⟨hd, ?_⟩
    rintro n ⟨⟩
    exact Note.placed_of_spelled?_eq_none rfl

/-- All notes stand on their targets, and the trees that are left are those of the sections still
to be parsed. -/
def Sound (code : List Char) (sections : List Section) (d : Draft) : Prop :=
  (∀ n ∈ d.notes, n.Placed code) ∧ Tree.Fit d.world.trees sections

theorem meets_identifiers {rest : List Section} (hs : s.PartOf code) :
    Meets (Sound code ((s :: rest).filter plan.parses))
      (if plan.asksFor s then identifiers s else pure [])
      (fun xs d => Sound code (rest.filter plan.parses) d ∧ ∀ x ∈ xs, x.StandsIn code)
      fun _ _ => True := by
  split
  · next hasks =>
    refine Meets.of_exec_ok fun d xs d' hsound hrun => ?_
    obtain ⟨found, w, hfound, rfl, rfl⟩ := identifiers_ok hrun
    cases hgrammar : Language.grammar? s.extension with
    | none =>
      -- Without a grammar there is no parse, so no tree is taken.
      have hparses : ¬ plan.parses s = true := by simp [Plan.parses, hgrammar]
      rw [List.filter_cons_of_neg hparses] at hsound
      unfold World.identifiers at hfound
      rw [hgrammar] at hfound
      cases hfound
      exact ⟨hsound, by simp⟩
    | some grammar =>
      have hsome : (Language.grammar? s.extension).isSome = true := by rw [hgrammar]; rfl
      have hparses : plan.parses s = true := by rw [Plan.parses, hasks, hsome]; rfl
      rw [List.filter_cons_of_pos hparses] at hsound
      obtain ⟨hstands, hfit⟩ := World.identifiers_ok hfound hsome hsound.2
      refine ⟨⟨hsound.1, hfit⟩, ?_⟩
      intro x hx
      obtain ⟨y, hy, rfl⟩ := List.mem_map.mp hx
      exact (hstands y hy).shift hs.content hs.stop
  · next hasks =>
    have hparses : ¬ plan.parses s = true := by simp [Plan.parses, hasks]
    rw [List.filter_cons_of_neg hparses]
    exact Meets.of_pure fun d hd => ⟨hd, fun x hx => absurd hx List.not_mem_nil⟩

theorem Same.sound {d : Draft} {next : List Section} (h : Same d₀ d) (h₀ : Sound code next d₀) :
    Sound code next d := by
  unfold Sound
  rw [h.1, h.2]
  exact h₀

theorem meets_notes {next : List Section} {m : Work (List Note)}
    (h : ∀ d₀, Meets (Same d₀) m (fun notes d => Same d₀ d ∧ ∀ n ∈ notes, n.Placed code)
      fun _ _ => True) :
    Meets (Sound code next) m (fun notes d => Sound code next d ∧ ∀ n ∈ notes, n.Placed code)
      fun _ _ => True := by
  refine Meets.of_exec_ok fun d notes d' hsound hrun => ?_
  obtain ⟨hsame, hplaced⟩ := (h d).ok ⟨rfl, rfl⟩ hrun
  exact ⟨hsame.sound hsound, hplaced⟩

theorem meets_addNotes {next : List Section} {notes : List Note} :
    Meets (fun d => Sound code next d ∧ ∀ n ∈ notes, n.Placed code) (addNotes notes)
      (fun _ => Sound code next) fun _ _ => True := by
  refine Meets.of_modify fun d ⟨hsound, hplaced⟩ => ⟨?_, hsound.2⟩
  intro n hn
  rcases List.mem_append.mp hn with hn | hn
  · exact hsound.1 n hn
  · exact hplaced n hn

def collectFrom (job : Job) (plan : Plan) (s : Section) (xs : List Identifier) : Work Unit := do
  if !plan.behaviour.noStaticSemanticInfo then
    addNotes (← xs.filterMapM (hover? job plan s))
  addNotes (← (plan.asked.queries.filter s.contains).mapM (query job plan s xs))
  (plan.asked.highlights.filter fun h => s.contains h.span.start).forM fun h => do
    addNotes (← highlight job plan s xs h)
  addNotes (← (plan.asked.completions.filter s.contains).filterMapM (completion? job plan s))

theorem collect_eq (job : Job) (plan : Plan) (s : Section) :
    collect job plan s =
      (if plan.asksFor s then identifiers s else pure []) >>= collectFrom job plan s := by
  unfold collect
  dsimp only
  cases hasks : plan.asksFor s with
  | true =>
    unfold Plan.asksFor at hasks
    rw [if_pos hasks, if_pos rfl]
    rfl
  | false =>
    unfold Plan.asksFor at hasks
    rw [if_neg (ne_true_of_eq_false hasks), if_neg Bool.false_ne_true]
    rfl

theorem meets_collectFrom {next : List Section} {xs : List Identifier}
    (hxs : ∀ x ∈ xs, x.StandsIn code) :
    Meets (Sound code next) (collectFrom job plan s xs) (fun _ => Sound code next)
      fun _ _ => True := by
  have hrest : Meets (Sound code next) (do
      addNotes (← (plan.asked.queries.filter s.contains).mapM (query job plan s xs))
      (plan.asked.highlights.filter fun h => s.contains h.span.start).forM fun h => do
        addNotes (← highlight job plan s xs h)
      addNotes (← (plan.asked.completions.filter s.contains).filterMapM (completion? job plan s)))
      (fun _ => Sound code next) fun _ _ => True := by
    refine Meets.bind (meets_notes fun d₀ => Meets.mapM fun i _ => meets_query i) fun notes => ?_
    refine Meets.bind meets_addNotes fun _ => ?_
    refine Meets.bind (@Meets.forM _ _ (fun _ => Sound code next) _ _ fun h _ _ => ?_) fun _ => ?_
    · exact Meets.bind (meets_notes fun d₀ => meets_highlight h hxs) fun _ => meets_addNotes
    · exact Meets.bind (meets_notes fun d₀ => Meets.filterMapM fun i _ => meets_completion i)
        fun _ => meets_addNotes
  unfold collectFrom
  dsimp only
  split
  · refine Meets.bind (meets_notes fun d₀ => Meets.filterMapM fun x hx => meets_hover (hxs x hx))
      fun notes => ?_
    exact Meets.bind meets_addNotes fun _ => hrest
  · exact hrest

theorem meets_collect {rest : List Section} (hs : s.PartOf code) :
    Meets (Sound code ((s :: rest).filter plan.parses)) (collect job plan s)
      (fun _ => Sound code (rest.filter plan.parses)) fun _ _ => True := by
  rw [collect_eq]
  exact Meets.bind (meets_identifiers hs) fun xs => Meets.of_and meets_collectFrom

theorem meets_perform_sound {next : List Section} (call : Checker.Call) :
    Meets (Sound code next) (perform job plan call) (fun _ => Sound code next) fun _ _ => True := by
  refine Meets.of_exec_ok fun d answer d' hsound hrun => ?_
  have hsame : Same d d' := (meets_perform call).ok ⟨rfl, rfl⟩ hrun
  exact hsame.sound hsound

theorem meets_register {next : List Section} :
    Meets (Sound code next) (register job plan s) (fun _ => Sound code next) fun _ _ => True := by
  unfold register
  refine Meets.bind (meets_perform_sound _) fun _ => ?_
  refine Meets.bind (Q := fun _ => Sound code next) (Meets.of_modify fun d hd => hd) fun _ => ?_
  exact Meets.of_modify fun d hd => hd

/-- The sections are worked on in their order, and each parse takes the next tree. -/
theorem meets_populate (hparts : ∀ s ∈ plan.sections, s.PartOf code)
    (hemit : plan.behaviour.showEmit = false) :
    Meets (Sound code plan.parsed) (populate job plan) (fun _ => Sound code []) fun _ _ => True := by
  unfold populate Plan.parsed
  rw [hemit, if_neg Bool.false_ne_true]
  -- The trees that are left belong to those of the remaining sections that will be parsed.
  refine @Meets.forM _ _ (fun rest => Sound code (rest.filter plan.parses)) _ _ ?_
  intro s rest hsuffix
  have hmem : s ∈ plan.sections.filter plan.registers := hsuffix.subset List.mem_cons_self
  refine Meets.bind meets_register fun _ => ?_
  exact meets_collect (hparts s (List.mem_filter.mp hmem).1)

theorem placed_of_errorNote {e : Checker.Diagnostic} {n : Note} (h : errorNote? plan s e = some n) :
    n.Placed code := by
  unfold errorNote? at h
  dsimp only at h
  split at h
  · cases h
  · split at h
    · cases h
    · cases h
      exact Note.placed_of_spelled?_eq_none rfl

theorem meets_diagnose {next : List Section} :
    Meets (Sound code next) (diagnose job plan) (fun _ => Sound code next) fun _ _ => True := by
  apply Meets.diagnose (R := Note.Placed code)
  · exact fun s _ _ => meets_perform_sound _
  · exact fun s e n he => placed_of_errorNote he
  · intro d found keep hsound hfound
    refine ⟨?_, hsound.2⟩
    intro n hn
    rcases List.mem_append.mp hn with hn | hn
    · exact hsound.1 n (List.mem_filter.mp hn).1
    · exact hfound n (List.mem_filter.mp hn).1
  · exact fun d e hsound => hsound
  · exact fun _ _ _ _ d hsound => trivial

end Collect

theorem spelled?_anchor (plan : Plan) (n : Note) : (anchor plan n).spelled? = n.spelled? := by
  unfold anchor
  dsimp only
  split
  · rfl
  · split <;> rfl

theorem anchor_of_spelled {plan : Plan} {n : Note} {t : String} (h : n.spelled? = some t) :
    anchor plan n = n := by
  have htag : n.isTag = false := by
    unfold Note.spelled? at h
    unfold Note.isTag Note.kindName
    split at h
    · next info hbody => rw [hbody]; rfl
    · next info label hbody => rw [hbody]; rfl
    · cases h
  unfold anchor
  rw [htag]
  rfl

theorem finish_spelled {plan : Plan} {code : List Char} {d d' : Draft} {r : Result}
    (h : exec (finish plan code) d = (.ok r, d')) (hproper : ∀ s ∈ plan.removals, s.Proper)
    (hplaced : ∀ n ∈ d.notes, n.Placed code) :
    ∀ n ∈ r.notes, ∀ t, n.spelled? = some t →
      Text.between r.code n.start (n.start + n.length) = t.toList := by
  intro n hn t ht
  rcases finish_ok h with ⟨-, rfl⟩ | ⟨-, rfl⟩
  · obtain ⟨m, hm, -, rfl⟩ := Note.mem_resolveAll hn
    exact (hplaced m hm t ht).2.2.2
  · obtain ⟨m, hm, hkept, rfl⟩ := Note.mem_resolveAll hn
    obtain ⟨k, hk, rfl⟩ := List.mem_map.mp hm
    have hspelled : k.spelled? = some t := (spelled?_anchor plan k).symm.trans ht
    rw [anchor_of_spelled hspelled] at hkept ⊢
    exact (hplaced k hk).between_erase hproper hkept hspelled

end Work

/-- In the result of a call, every hover and every highlight stands on its target. -/
theorem Annotator.text_under_note_eq_target (a : Annotator) (q : Request) (w : World) (r : Result)
    (h : (a.annotate q w).1 = .ok r) (htrees : Tree.Fit w.trees r.plan.parsed) :
    ∀ n ∈ r.notes, ∀ t, n.spelled? = some t →
      Text.between r.code n.start (n.start + n.length) = t.toList := by
  obtain ⟨start, d, -, hrun⟩ := annotate_ok h
  obtain ⟨plan, tags, d₁, d₂, d₃, shown, final, hread, hpopulate, hdiagnose, hshown, hfinish⟩ :=
    Work.run_ok hrun
  have hproper := Plan.removals_proper hread
  obtain ⟨flags, cuts, -, -, -, htags, hplan⟩ := Plan.read_ok hread
  cases hemit : plan.behaviour.showEmit with
  | true =>
    -- Showing the emitted text drops all notes.
    unfold Work.emit at hshown
    rw [hemit, if_pos rfl] at hshown
    obtain ⟨_, _, _, _, _, -, -, -, -, -, hnotes, rfl⟩ := Work.showOutput_ok hshown
    refine Work.finish_spelled hfinish (by simp) ?_
    rw [hnotes]
    simp
  | false =>
    rw [Work.emit_of_not_showEmit hemit] at hshown
    cases hshown
    refine Work.finish_spelled hfinish hproper ?_
    have hparts : ∀ s ∈ plan.sections, s.PartOf q.code := by
      rw [hplan]
      exact fun s hs => Section.partOf_of_mem_split hs
    obtain ⟨removals, hlast⟩ := Work.finish_plan hfinish
    rw [hlast] at htrees
    have hsound : Work.Sound q.code plan.parsed { world := w, notes := [] ++ tags } := by
      refine ⟨?_, htrees⟩
      intro n hn
      rw [List.nil_append, htags] at hn
      obtain ⟨f, -, hf⟩ := List.mem_filterMap.mp hn
      exact Plan.placed_of_tagNote hf
    have hcollected := (Work.meets_populate hparts hemit).ok hsound hpopulate
    exact (Work.meets_diagnose.ok hcollected hdiagnose).1

/-- A hover and a highlight in the second of two files, behind a cut and a letter of two bytes. -/
theorem Annotator.text_under_note_eq_target_example :
    let a : Annotator := { script := { quickInfo := [("x", .str "let x")] }, declarations := [] }
    let q : Request :=
      { code := "let z\n// ---cut---\n// @filename: b.ts\nlet é = x\n//      ^^^\n".toList }
    let w : World := { trees := some [.node "program" 0 18 [.node "identifier" 4 5 []],
      .node "program" 0 41 [.node "identifier" 23 25 [], .node "identifier" 28 29 []]] }
    ∃ r, (a.annotate q w).1 = .ok r ∧ Tree.Fit w.trees r.plan.parsed ∧
      r.notes.map Note.kindName = ["highlight", "hover"] ∧
      ∀ n ∈ r.notes, n.spelled? = some "x" ∧
        Text.between r.code n.start (n.start + n.length) = "x".toList := by
  intro a q w
  have hrun : ((a.annotate q w).1.toOption.map fun r =>
      (r.notes.map Note.kindName, r.notes.map Note.spelled?, r.plan.parsed.map Section.content)) =
        some (["highlight", "hover"], [some "x", some "x"], ["let z\n// ---cut---\n".toList,
          "// @filename: b.ts\nlet é = x\n//      ^^^\n".toList]) := by
    decide +kernel
  obtain ⟨r, hr, hvalues⟩ := Outcome.exists_ok_of_toOption_map hrun
  simp only [Prod.mk.injEq] at hvalues
  obtain ⟨hkinds, hspelled, hparsed⟩ := hvalues
  have hfit : Tree.Fit w.trees r.plan.parsed := by
    rintro ts ⟨⟩ x hx
    have hmem := List.mem_map_of_mem (f := Prod.map id Section.content) hx
    rw [← List.zip_map_right, hparsed] at hmem
    simp only [List.zip_cons_cons, List.zip_nil_right, List.mem_cons, List.not_mem_nil, or_false,
      Prod.map, id, Prod.mk.injEq] at hmem
    rcases hmem with ⟨htree, htext⟩ | ⟨htree, htext⟩
    · rw [htree, htext]
      simp only [Tree.Within, Tree.AllWithin]
      decide
    · rw [htree, htext]
      simp only [Tree.Within, Tree.AllWithin]
      decide
  refine ⟨r, hr, hfit, hkinds, ?_⟩
  intro n hn
  have hx : n.spelled? = some "x" := by
    have hmem := List.mem_map_of_mem (f := Note.spelled?) hn
    rw [hspelled] at hmem
    simpa using hmem
  exact ⟨hx, text_under_note_eq_target a q w r hr hfit n hn "x" hx⟩

end Marginalia
