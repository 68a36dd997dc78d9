import Marginalia.Proofs.Failing
import Marginalia.Proofs.Marker

/-!
# Markers without an answer

A call fails for the first marker that the checker has no answer to, in the order of the sections and,
in a section, queries before highlights before completions.  The line that is reported is found from
the index that the marker points at.  It is the marker's line if the marker reaches the line above.
-/

namespace Marginalia
set_option autoImplicit false

open Outcome

def Failure.OfMarker : Failure → Prop
  | unresolvedMarker _ _ _ => True
  | _ => False

/-- The kind of the marker that a call has failed for, with the line and the file that it reports. -/
def Failure.marker? : Failure → Option (MarkerKind × Int × String)
  | unresolvedMarker kind line filename => some (kind, line, filename)
  | _ => none

theorem Failure.eq_error_of_marker? {α : Type} {x : Except Failure α} {kind : MarkerKind} {line : Int}
    {filename : String} (h : (failure? x).bind marker? = some (kind, line, filename)) :
    x = .error (.unresolvedMarker kind line filename) := by
  obtain ⟨e, he, hmarker⟩ := Option.bind_eq_some_iff.mp h
  obtain rfl := failure?_eq_some.mp he
  cases e with
  | unresolvedMarker =>
    cases hmarker
    rfl
  | _ => cases hmarker

theorem Failure.around_not_ofMarker : Around fun e => ¬ e.OfMarker where
  reading e he := by
    cases e with
    | unresolvedMarker => exact False.elim he
    | _ => exact id
  malformed _ := id
  undocumented _ _ _ _ := id
  source _ _ := id
  output _ _ _ := id

/-- An identifier is under the caret, and the checker knows the word there. -/
def Checker.answersQuery (c : Checker) (s : Section) (xs : List Identifier) (i : Int) : Bool :=
  xs.any (·.span.touches i) && (c.infoIn s.content (i - s.offset)).isSome

/-- The checker knows an identifier that meets the highlighted stretch. -/
def Checker.answersHighlight (c : Checker) (s : Section) (xs : List Identifier) (h : Highlight) :
    Bool :=
  xs.any fun x => x.span.meets h.span && (c.infoIn s.content (x.span.start - s.offset)).isSome

def Checker.marked (c : Checker) (s : Section) (xs : List Identifier) (h : Highlight) : List Note :=
  xs.filterMap fun x =>
    if x.span.meets h.span then
      (c.infoIn s.content (x.span.start - s.offset)).map (Answered.highlightNote h.label x)
    else none

theorem Checker.isEmpty_marked (c : Checker) (s : Section) (xs : List Identifier) (h : Highlight) :
    (c.marked s xs h).isEmpty = !c.answersHighlight s xs h := by
  rw [Bool.eq_iff_iff, List.isEmpty_iff, Bool.not_eq_true', marked, List.filterMap_eq_nil_iff,
    answersHighlight, List.any_eq_false]
  refine forall₂_congr fun x _ => ?_
  cases x.span.meets h.span <;> simp

theorem Checker.completions?_create_self (c : Checker) (path : String) (content : List Char) :
    (c.create path content).completions? path = c.offered := by
  unfold completions?
  rw [file?_create_self]
  rfl

namespace Plan
variable (p : Plan) (c : Checker)

/-- Completions are offered, or none are needed. -/
def answersCompletion (i : Int) : Bool :=
  p.removes i || c.offered.isSome || p.behaviour.noErrorValidation

/-- What is asked in a section without an answer, in the order in which a call looks at it. -/
def unansweredIn (s : Section) (xs : List Identifier) : List (MarkerKind × Int) :=
  ((p.asked.queries.filter s.contains).filter fun i => !c.answersQuery s xs i).map
      (MarkerKind.query, ·) ++
    (((p.asked.highlights.filter fun h => s.contains h.span.start).filter fun h =>
      !c.answersHighlight s xs h).map fun h => (MarkerKind.highlight, h.span.start)) ++
    ((p.asked.completions.filter s.contains).filter fun i => !p.answersCompletion c i).map
      (MarkerKind.completion, ·)

def unansweredAmong (read : List (Section × List Identifier)) : List (Section × MarkerKind × Int) :=
  read.flatMap fun x => (p.unansweredIn c x.1 x.2).map (x.1, ·)

/-- What is asked in the sample without an answer. -/
def unanswered (trees : Option (List Tree)) : List (Section × MarkerKind × Int) :=
  p.unansweredAmong c (p.identified trees)

variable {p c} {s : Section} {xs : List Identifier} {kind : MarkerKind} {i : Int}

theorem asked_of_mem_unansweredIn (h : (kind, i) ∈ p.unansweredIn c s xs) :
    i ∈ p.asked.starts kind ∧ s.contains i = true ∧
      (kind = .completion → p.removes i = false) := by
  unfold unansweredIn at h
  rcases List.mem_append.mp h with h | h
  · rcases List.mem_append.mp h with h | h
    · obtain ⟨j, hj, heq⟩ := List.mem_map.mp h
      obtain ⟨rfl, rfl⟩ := Prod.mk.inj heq
      obtain ⟨hasked, hs⟩ := List.mem_filter.mp (List.mem_filter.mp hj).1
      exact ⟨hasked, hs, nofun⟩
    · obtain ⟨m, hm, heq⟩ := List.mem_map.mp h
      obtain ⟨rfl, rfl⟩ := Prod.mk.inj heq
      obtain ⟨hasked, hs⟩ := List.mem_filter.mp (List.mem_filter.mp hm).1
      exact ⟨List.mem_map_of_mem hasked, hs, nofun⟩
  · obtain ⟨j, hj, heq⟩ := List.mem_map.mp h
    obtain ⟨rfl, rfl⟩ := Prod.mk.inj heq
    obtain ⟨hmem, hanswer⟩ := List.mem_filter.mp hj
    obtain ⟨hasked, hs⟩ := List.mem_filter.mp hmem
    refine ⟨hasked, hs, fun _ => ?_⟩
    simp only [answersCompletion, Bool.not_eq_true', Bool.or_eq_false_iff] at hanswer
    exact hanswer.1.1

theorem mem_of_mem_unansweredAmong {read : List (Section × List Identifier)}
    (h : (s, kind, i) ∈ p.unansweredAmong c read) :
    ∃ xs, (s, xs) ∈ read ∧ (kind, i) ∈ p.unansweredIn c s xs := by
  obtain ⟨⟨s', xs⟩, hread, hmem⟩ := List.mem_flatMap.mp h
  obtain ⟨⟨kind', i'⟩, hasked, heq⟩ := List.mem_map.mp hmem
  cases heq
  exact ⟨xs, hread, hasked⟩

theorem unansweredAmong_cons (p : Plan) (c : Checker) (s : Section) (xs : List Identifier)
    (read : List (Section × List Identifier)) :
    p.unansweredAmong c ((s, xs) :: read) =
      (p.unansweredIn c s xs).map (s, ·) ++ p.unansweredAmong c read := rfl

theorem unansweredAmong_create (p : Plan) (c : Checker) (path : String) (content : List Char)
    (read : List (Section × List Identifier)) :
    p.unansweredAmong (c.create path content) read = p.unansweredAmong c read := rfl

end Plan

namespace Answered
variable {job : Job} {plan : Plan} {c : Checker} {s : Section} {xs : List Identifier}

theorem findSome?_wanting {α β : Type} (answers : α → Bool) (f : α → β) (xs : List α) :
    (xs.findSome? fun x => if answers x then none else some (f x)) =
      (xs.filter fun x => !answers x).head?.map f := by
  induction xs with
  | nil => rfl
  | cons x xs ih =>
    rw [List.findSome?_cons]
    cases hx : answers x with
    | true => simpa [hx] using ih
    | false => simp [hx]

theorem failure?_joined (first second : Except Failure (List Note)) :
    failure? (joined first second) = (failure? first).or (failure? second) := by
  cases first with
  | error e => rfl
  | ok xs => cases second <;> rfl

theorem failure?_hovers : failure? (hovers job plan (c.create s.path s.content) s xs) = none := by
  unfold hovers
  split
  · rfl
  · rw [failure?_filterMapM, List.findSome?_eq_none_iff]
    intro x _
    rw [hover_create]
    rfl

theorem failure?_query (i : Int) :
    failure? (query job (c.create s.path s.content) s xs i) =
      if c.answersQuery s xs i then none else some (unresolved job s .query i) := by
  unfold query Checker.answersQuery
  cases hfind : xs.find? (·.span.touches i) with
  | none =>
    have hany : xs.any (·.span.touches i) = false := by
      rw [List.any_eq_false]
      exact List.find?_eq_none.mp hfind
    rw [hany]
    rfl
  | some x =>
    have hany : xs.any (·.span.touches i) = true :=
      List.any_eq_true.mpr ⟨x, List.mem_of_find?_eq_some hfind, by simpa using List.find?_some hfind⟩
    rw [hany, Bool.true_and]
    dsimp only
    rw [Checker.infoAt_create_self, ok_bind]
    cases c.infoIn s.content (i - s.offset) <;> rfl

theorem highlight_create (h : Highlight) :
    highlight job (c.create s.path s.content) s xs h =
      if (c.marked s xs h).isEmpty then .error (unresolved job s .highlight h.span.start)
      else .ok (c.marked s xs h) := by
  have hnotes : xs.filterMapM (highlighted (c.create s.path s.content) s h) =
      .ok (c.marked s xs h) := by
    apply filterMapM_of_ok
    intro x _
    unfold highlighted
    rw [Checker.infoAt_create_self]
    cases x.span.meets h.span <;> rfl
  unfold highlight
  rw [hnotes]
  rfl

theorem failure?_highlight (h : Highlight) :
    failure? (highlight job (c.create s.path s.content) s xs h) =
      if c.answersHighlight s xs h then none else some (unresolved job s .highlight h.span.start) := by
  rw [highlight_create, Checker.isEmpty_marked]
  cases c.answersHighlight s xs h <;> rfl

theorem failure?_completion (i : Int) :
    failure? (completion job plan (c.create s.path s.content) s i) =
      if plan.answersCompletion c i then none else some (unresolved job s .completion i) := by
  unfold completion Plan.answersCompletion
  rw [Checker.completions?_create_self]
  cases plan.removes i <;> cases c.offered <;> cases plan.behaviour.noErrorValidation <;> rfl

/-- The notes of a section fail for the first marker without an answer. -/
theorem failure?_notes :
    failure? (notes job plan (c.create s.path s.content) s xs) =
      (plan.unansweredIn c s xs).head?.map fun x => unresolved job s x.1 x.2 := by
  unfold notes queries highlights completions Plan.unansweredIn
  rw [failure?_joined, failure?_joined, failure?_joined, failure?_hovers, failure?_mapM, failure?_map,
    failure?_mapM, failure?_filterMapM]
  simp only [failure?_query, failure?_highlight, failure?_completion, findSome?_wanting,
    List.head?_append, List.head?_map, Option.map_or, Option.map_map, Option.none_or, Option.or_assoc]
  rfl

variable {p : Except Failure Checker} {trees : Option (List Tree)} {sections : List Section}
  {kind : MarkerKind} {line : Int} {filename : String}

theorem failsOnly_readSection :
    FailsOnly (fun e => ¬ e.OfMarker) (plan.readSection trees s).1 := by
  unfold Plan.readSection
  split
  · exact (World.failsOnly_identifiers (fun _ => id) id _ _ _).map _
  · exact failsOnly_ok []

theorem unresolved_of_populated (hemit : plan.behaviour.showEmit = false)
    (hp : FailsOnly (fun e => ¬ e.OfMarker) p)
    (h : populated job plan p trees sections = .error (.unresolvedMarker kind line filename)) :
    ∃ c s i, p = .ok c ∧
      (plan.unansweredAmong c (plan.readAll trees sections)).head? = some (s, kind, i) ∧
      line = Work.markerLine job i ∧ filename = s.filename := by
  induction sections generalizing p trees with
  | nil => cases h
  | cons s rest ih =>
    unfold populated at h
    rcases bind_eq_error.mp h with hfails | ⟨c, rfl, hcollecting⟩
    · exact absurd trivial (hp _ hfails)
    refine ⟨c, ?_⟩
    dsimp only at hcollecting
    rw [collected_of_not_showEmit hemit, treesAfter_of_not_showEmit hemit] at hcollecting
    unfold Plan.readAll
    cases hread : (plan.readSection trees s).1 with
    | error e =>
      rw [hread] at hcollecting
      cases hcollecting
      exact absurd trivial (failsOnly_readSection _ hread)
    | ok xs =>
      have hfirst := failure?_eq_some.mpr hcollecting
      rw [hread, ok_bind, failure?_joined, failure?_notes] at hfirst
      dsimp only [Except.toOption, Option.getD_some]
      rw [plan.unansweredAmong_cons, List.head?_append, List.head?_map]
      cases hhere : (plan.unansweredIn c s xs).head? with
      | none =>
        rw [hhere, Option.map_none, Option.none_or] at hfirst
        obtain ⟨_, t, i, hc, hnext, hreport⟩ := ih (failsOnly_ok _) (failure?_eq_some.mp hfirst)
        cases hc
        rw [plan.unansweredAmong_create] at hnext
        exact ⟨t, i, rfl, hnext, hreport⟩
      | some x =>
        rw [hhere] at hfirst
        cases hfirst
        exact ⟨s, x.2, rfl, rfl, rfl, rfl⟩

theorem failsOnly_populated_of_showEmit {P : Failure → Prop} (hemit : plan.behaviour.showEmit = true)
    (hp : FailsOnly P p) : FailsOnly P (populated job plan p trees sections) := by
  induction sections generalizing p trees with
  | nil => exact failsOnly_ok []
  | cons s rest ih =>
    unfold populated
    refine hp.bind fun c _ => ?_
    have hnotes : ∀ c, collected job plan c s trees = .ok [] := by
      intro c
      unfold collected
      rw [hemit, if_pos rfl]
    dsimp only
    rw [hnotes, joined_nil_left]
    exact ih (failsOnly_ok _)

end Answered

namespace Annotator
variable {a : Annotator} {q : Request} {w : World} {plan : Plan} {tags : List Note}

theorem asked_of_reading (hqueries : q.queries = []) (hcompletions : q.completions = [])
    (hhighlights : q.highlights = []) (h : a.reading q = .ok (plan, tags)) :
    plan.asked = Marker.requests q.code {} := by
  obtain ⟨start, hstart, hread⟩ := bind_eq_ok.mp h
  have hnone : start.asked = {} := by
    have hasked : q.asked = .ok {} := by
      unfold Request.asked
      rw [hqueries, hcompletions, hhighlights]
      rfl
    unfold Annotator.plan at hstart
    rw [hasked] at hstart
    obtain ⟨_, -, hstart⟩ := bind_eq_ok.mp hstart
    obtain ⟨_, -, hstart⟩ := bind_eq_ok.mp hstart
    obtain ⟨_, hplaces, hstart⟩ := bind_eq_ok.mp hstart
    cases hplaces
    obtain rfl := Except.ok.inj hstart
    rfl
  obtain ⟨flags, cuts, -, -, -, -, rfl⟩ := Plan.read_ok hread
  dsimp only
  rw [Plan.asked_withFlags, hnone]

theorem removes_of_removals (h : a.reading q = .ok (plan, tags)) {s : Span} {i : Int}
    (hs : s ∈ Marker.removals q.code) (hi : s.contains i = true) : plan.removes i = true := by
  obtain ⟨start, -, hread⟩ := bind_eq_ok.mp h
  obtain ⟨flags, cuts, -, -, -, -, rfl⟩ := Plan.read_ok hread
  exact List.any_eq_true.mpr ⟨s, List.mem_append_right _ hs, hi⟩

/-- A call that fails for a marker fails for the first without an answer. -/
theorem unanswered_of_annotate {kind : MarkerKind} {line : Int}
    {filename : String} (h : (a.annotate q w).1 = .error (.unresolvedMarker kind line filename)) :
    ∃ plan tags c s i, a.reading q = .ok (plan, tags) ∧
      w.serving a.slot a.script plan.options = .ok c ∧
      (plan.unanswered c w.trees).head? = some (s, kind, i) ∧
      line = Work.markerLine (a.job q) i ∧ filename = s.filename := by
  have haround := Failure.around_not_ofMarker
  rw [annotate_eq_collected] at h
  rcases bind_eq_error.mp h with hfails | ⟨⟨plan, notes⟩, hcollected, hending⟩
  · unfold collected at hfails
    rcases bind_eq_error.mp hfails with hreading | ⟨⟨plan, tags⟩, hreading, hfails⟩
    · exact absurd trivial (a.failsOnly_reading haround q _ hreading)
    have hserving : FailsOnly (fun e => ¬ e.OfMarker) (w.serving a.slot a.script plan.options) :=
      w.failsOnly_serving haround.malformed a.slot a.script plan.options
    rcases bind_eq_error.mp hfails with hpopulated | ⟨_, -, hfails⟩
    · cases hemit : plan.behaviour.showEmit with
      | true =>
        have hnone := Answered.failsOnly_populated_of_showEmit hemit hserving _ hpopulated
        exact absurd trivial hnone
      | false =>
        obtain ⟨c, s, i, hc, hfirst, hreport⟩ :=
          Answered.unresolved_of_populated hemit hserving hpopulated
        exact ⟨plan, tags, c, s, i, hreading, hc, hfirst, hreport⟩
    · rcases bind_eq_error.mp hfails with hdiagnosed | ⟨_, -, hfails⟩
      · exact absurd trivial (Answered.failsOnly_diagnosed haround hserving _ hdiagnosed)
      · cases hfails
  · obtain ⟨tags, _, _, hreading, -⟩ := collected_ok hcollected
    obtain ⟨start, -, hread⟩ := bind_eq_ok.mp hreading
    have hserving : FailsOnly (fun e => ¬ e.OfMarker) (w.serving a.slot a.script plan.options) :=
      w.failsOnly_serving haround.malformed a.slot a.script plan.options
    rcases Answered.ending_error_cases_of haround.malformed haround.source haround.output hread
      hserving hending with hnot | ⟨_, _, -, -, he⟩
    · exact absurd trivial hnot
    · cases he

/-- The line that a call reports when it fails for a marker, if all places that it looks at are those
of markers.  The place it stopped at is the first without an answer, and markers of the reported kind
point there.  What is reported is the line of a marker that points there exactly if one of these
reaches the line above, as it does in the case of completions.  A marker that does not is one line above
the reported one. -/
theorem unresolved_line_iff (a : Annotator) (q : Request) (w : World) (kind : MarkerKind) (line : Int)
    (filename : String) (h : (a.annotate q w).1 = .error (.unresolvedMarker kind line filename))
    (hqueries : q.queries = []) (hcompletions : q.completions = [])
    (hhighlights : q.highlights = []) :
    ∃ plan tags c s i, a.reading q = .ok (plan, tags) ∧
      w.serving a.slot a.script plan.options = .ok c ∧
      (plan.unanswered c w.trees).head? = some (s, kind, i) ∧
      s.filename = filename ∧ s.contains i = true ∧
      (∃ k, Marker.Records q.code k kind i) ∧
      ((∃ k other, Marker.Records q.code k other i ∧ line = k + 1) ↔
        ∃ k other, Marker.Records q.code k other i ∧ Marker.Reaches q.code k) ∧
      (∀ k other, Marker.Records q.code k other i → ¬ Marker.Reaches q.code k → line = k + 2) ∧
      (kind = .completion → ∀ k other, Marker.Records q.code k other i → line = k + 1) := by
  obtain ⟨plan, tags, c, s, i, hreading, hserving, hfirst, hline, hfile⟩ :=
    unanswered_of_annotate h
  obtain ⟨xs, -, hmem⟩ := Plan.mem_of_mem_unansweredAmong (List.mem_of_head? hfirst)
  obtain ⟨hasked, hs, hstays⟩ := Plan.asked_of_mem_unansweredIn hmem
  rw [asked_of_reading hqueries hcompletions hhighlights hreading] at hasked
  have hplace : line = (Position.ofIndex q.code i).line + 2 := hline
  have hreaches : ∀ k other, Marker.Records q.code k other i → Marker.Reaches q.code k →
      line = k + 1 := by
    intro k other hrecords hreach
    have := Marker.line_of_reaches hrecords hreach
    omega
  have hmisses : ∀ k other, Marker.Records q.code k other i → ¬ Marker.Reaches q.code k →
      line = k + 2 := by
    intro k other hrecords hreach
    rw [hplace, Marker.line_of_not_reaches hrecords hreach]
  refine ⟨plan, tags, c, s, i, hreading, hserving, hfirst, hfile.symm, hs,
    Marker.mem_starts_iff.mp hasked, ?_, hmisses, ?_⟩
  · constructor
    · rintro ⟨k, other, hrecords, hk⟩
      refine ⟨k, other, hrecords, ?_⟩
      by_contra hreach
      have := hmisses k other hrecords hreach
      omega
    · rintro ⟨k, other, hrecords, hreach⟩
      exact ⟨k, other, hrecords, hreaches k other hrecords hreach⟩
  · -- On the marker's own line a caret is erased, and no completions are asked for there.
    intro hkind k other hrecords
    by_cases hreach : Marker.Reaches q.code k
    · exact hreaches k other hrecords hreach
    · obtain ⟨own, hown, hin⟩ := Marker.exists_removal_of_not_reaches hrecords hreach
      have hremoves := removes_of_removals hreading hown hin
      rw [hstays hkind] at hremoves
      cases hremoves

/-- The caret stands under a blank, in a column that the line above has. -/
theorem unresolved_line_iff_example :
    let a : Annotator := { declarations := [] }
    let q : Request := { code := "let a\n// ^?\n".toList }
    (a.annotate q {}).1 = .error (.unresolvedMarker .query 2 "index.ts") ∧
      q.queries = [] ∧ q.completions = [] ∧ q.highlights = [] ∧
      ∃ k other i, Marker.Records q.code k other i ∧ (2 : Int) = k + 1 := by
  intro a q
  have hfails : (a.annotate q {}).1 = .error (.unresolvedMarker .query 2 "index.ts") :=
    Failure.eq_error_of_marker? (by decide +kernel)
  obtain ⟨_, _, _, _, i, -, -, -, -, -, ⟨k, hrecords⟩, hiff, hmisses, -⟩ :=
    unresolved_line_iff a q {} .query 2 "index.ts" hfails rfl rfl rfl
  have hreach : Marker.Reaches q.code k := by
    by_contra hreach
    have hfirst := hmisses k .query hrecords hreach
    obtain rfl : k = 0 := by omega
    exact Marker.not_records (by decide) .query i hrecords
  obtain ⟨k, other, hrecords, hline⟩ := hiff.mpr ⟨k, .query, hrecords, hreach⟩
  exact ⟨hfails, rfl, rfl, rfl, k, other, i, hrecords, hline⟩

/-- A marker on the first line, which is said to be on the second, and a marker on the second that
points behind the line above it, which is said to be on the third. -/
theorem unresolved_line_counterexample :
    let a : Annotator := { declarations := [] }
    let first := "// ^?\n".toList
    let second := "ab\n//   ^?\n".toList
    (a.annotate { code := first } {}).1 = .error (.unresolvedMarker .query 2 "index.ts") ∧
      (∀ k kind i, Marker.Records first k kind i → (2 : Int) ≠ k + 1) ∧
      (a.annotate { code := second } {}).1 = .error (.unresolvedMarker .query 3 "index.ts") ∧
      ∀ k kind i, Marker.Records second k kind i → (3 : Int) ≠ k + 1 := by
  intro a first second
  refine ⟨Failure.eq_error_of_marker? (by decide +kernel), ?_,
    Failure.eq_error_of_marker? (by decide +kernel), ?_⟩
  · intro k kind i hrecords hline
    obtain rfl : k = 1 := by omega
    exact Marker.not_records (by decide) kind i hrecords
  · intro k kind i hrecords hline
    obtain rfl : k = 2 := by omega
    exact Marker.not_records (by decide) kind i hrecords

end Annotator

end Marginalia
