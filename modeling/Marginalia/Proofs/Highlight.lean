import Marginalia.Proofs.Kind
import Marginalia.Proofs.Unresolved

/-!
# What a highlight marks

A highlight marks the known identifiers that its carets meet.  Two stretches meet as two carets touch:
an identifier that ends where the carets begin, or begins where they end, is marked too.
-/

namespace Marginalia
set_option autoImplicit false

theorem Span.meets_iff {a b : Span} (ha : a.start ≤ a.stop) (hb : b.start ≤ b.stop) :
    a.meets b = true ↔ a.start ≤ b.stop ∧ b.start ≤ a.stop := by
  unfold meets
  simp only [Bool.or_eq_true, touches_iff]
  omega

/-! ## Identifiers run forwards -/

theorem Token.start_le_stop_of_mem_scan {s : State} {i : Nat} {rest : List Char} :
    ∀ x ∈ scan s i rest, x.span.start ≤ x.span.stop := by
  have hword : ∀ {afterPoint start chars x}, wordIdentifier? afterPoint start chars = some x →
      x.span.start ≤ x.span.stop := by
    intro afterPoint start chars x hx
    unfold wordIdentifier? at hx
    dsimp only at hx
    split at hx
    · cases hx
      exact Int.le_add_of_nonneg_right (Int.natCast_nonneg _)
    · cases hx
  induction rest generalizing s i with
  | nil =>
    intro x hx
    unfold scan at hx
    split at hx
    · exact hword (Option.mem_toList.mp hx)
    · exact absurd hx List.not_mem_nil
  | cons c rest ih =>
    intro x hx
    simp only [scan] at hx
    rcases List.mem_append.mp hx with hx | hx
    · obtain ⟨start, chars, -, hfound⟩ := found_of_read (Option.mem_toList.mp hx)
      exact hword hfound
    · exact ih x hx

theorem Identifier.start_lt_stop_of_mem_atBytes {content : List Char} {first last : Int}
    {xs : List Identifier} (h : atBytes content first last = .ok xs) :
    ∀ x ∈ xs, x.span.start < x.span.stop := by
  obtain ⟨start, -, h⟩ := Outcome.bind_eq_ok.mp h
  obtain ⟨stop, -, rfl⟩ := Outcome.map_eq_ok.mp h
  intro x hx
  split at hx
  · next hlt =>
    obtain rfl := List.mem_singleton.mp hx
    exact hlt
  · exact absurd hx List.not_mem_nil

namespace Tree

mutual

theorem start_lt_stop_of_mem {content : List Char} {t : Tree} {xs : List Identifier}
    (h : t.preorder content = .ok xs) : ∀ x ∈ xs, x.span.start < x.span.stop := by
  cases t with
  | node kind first last children =>
    unfold preorder at h
    split at h
    · exact Identifier.start_lt_stop_of_mem_atBytes h
    · exact start_lt_stop_of_mem_all h

theorem start_lt_stop_of_mem_all {content : List Char} {ts : List Tree} {xs : List Identifier}
    (h : preorderOfAll content ts = .ok xs) : ∀ x ∈ xs, x.span.start < x.span.stop := by
  cases ts with
  | nil =>
    cases h
    exact fun x hx => absurd hx List.not_mem_nil
  | cons t rest =>
    unfold preorderOfAll at h
    split at h
    · cases h
    · next ys hys =>
      obtain ⟨zs, hzs, rfl⟩ := Outcome.map_eq_ok.mp h
      intro x hx
      rcases List.mem_append.mp hx with hx | hx
      · exact start_lt_stop_of_mem hys x hx
      · exact start_lt_stop_of_mem_all hzs x hx

end

end Tree

theorem World.start_le_stop_of_mem {w : World} {content : List Char} {extension : String}
    {xs : List Identifier} (h : (w.identifiers content extension).1 = .ok xs) :
    ∀ x ∈ xs, x.span.start ≤ x.span.stop := by
  unfold identifiers at h
  split at h
  · cases h
    exact fun x hx => absurd hx List.not_mem_nil
  · split at h
    · next tree rest _ =>
      dsimp only at h
      rw [Tree.identifiers_eq_preorder] at h
      cases hxs : tree.preorder content with
      | error e =>
        rw [hxs] at h
        cases h
      | ok ys =>
        rw [hxs] at h
        obtain rfl : ys = xs := Except.ok.inj h
        exact fun x hx => Int.le_of_lt (Tree.start_lt_stop_of_mem hxs x hx)
    · cases h
    · obtain rfl := Except.ok.inj h
      split
      · exact fun x hx => absurd hx List.not_mem_nil
      · exact Token.start_le_stop_of_mem_scan

theorem Plan.start_le_stop_of_mem_readAll (plan : Plan) (trees : Option (List Tree))
    (sections : List Section) :
    ∀ y ∈ plan.readAll trees sections, ∀ x ∈ y.2, x.span.start ≤ x.span.stop := by
  have hsection : ∀ trees s xs, (plan.readSection trees s).1 = .ok xs →
      ∀ x ∈ xs, x.span.start ≤ x.span.stop := by
    intro trees s xs h x hx
    unfold readSection at h
    split at h
    · obtain ⟨found, hfound, rfl⟩ := Outcome.map_eq_ok.mp h
      obtain ⟨z, hz, rfl⟩ := List.mem_map.mp hx
      exact Int.add_le_add_right (World.start_le_stop_of_mem hfound z hz) _
    · cases h
      exact absurd hx List.not_mem_nil
  induction sections generalizing trees with
  | nil => exact fun y hy => absurd hy List.not_mem_nil
  | cons s rest ih =>
    intro y hy x hx
    rcases List.mem_cons.mp hy with rfl | hy
    · cases hread : (plan.readSection trees s).1 with
      | error e =>
        simp only [hread, Except.toOption, Option.getD_none] at hx
        exact absurd hx List.not_mem_nil
      | ok xs =>
        simp only [hread, Except.toOption, Option.getD_some] at hx
        exact hsection trees s xs hread x hx
    · exact ih _ y hy x hx

/-! ## Highlights of markers -/

namespace Marker

/-- What a marker line highlights. -/
def highlight? (code : List Char) : Line × Form → Option Highlight
  | (l, f) =>
    match f.sign with
    | .highlight carets label => some ⟨⟨target code l f, target code l f + carets⟩, label⟩
    | _ => none

def highlights (code : List Char) : List Highlight := (lines code).filterMap (highlight? code)

theorem highlights_requests (code : List Char) (asked : Requests) :
    (requests code asked).highlights = asked.highlights ++ highlights code := by
  unfold requests highlights
  induction lines code generalizing asked with
  | nil => simp
  | cons x rest ih =>
    obtain ⟨l, column, sign⟩ := x
    rw [List.foldl_cons, ih]
    cases sign <;> simp [Requests.add, highlight?, List.filterMap_cons]

theorem start_le_stop_of_mem_highlights {code : List Char} {h : Highlight} (hh : h ∈ highlights code) :
    h.span.start ≤ h.span.stop := by
  obtain ⟨⟨l, column, sign⟩, -, hsign⟩ := List.mem_filterMap.mp hh
  cases sign with
  | highlight carets label =>
    cases hsign
    exact Int.le_add_of_nonneg_right (Int.natCast_nonneg carets)
  | _ => cases hsign

end Marker

theorem Checker.marked_eq (c : Checker) (s : Section) {xs : List Identifier}
    (hxs : ∀ x ∈ xs, x.span.start ≤ x.span.stop) {h : Highlight} (hh : h.span.start ≤ h.span.stop) :
    c.marked s xs h =
      (xs.filter fun x => x.span.start ≤ h.span.stop && h.span.start ≤ x.span.stop).filterMap fun x =>
        (c.infoIn s.content (x.span.start - s.offset)).map (Answered.highlightNote h.label x) := by
  rw [List.filterMap_filter]
  refine List.filterMap_congr fun x hx => ?_
  have hmeets : x.span.meets h.span =
      (decide (x.span.start ≤ h.span.stop) && decide (h.span.start ≤ x.span.stop)) := by
    rw [Bool.eq_iff_iff, Span.meets_iff (hxs x hx) hh]
    simp
  rw [hmeets]

theorem Plan.highlight_mem_unanswered {plan : Plan} {c : Checker} {trees : Option (List Tree)}
    {s : Section} {xs : List Identifier} {h : Highlight} (hs : (s, xs) ∈ plan.identified trees)
    (hasked : h ∈ plan.asked.highlights) (hcontains : s.contains h.span.start = true)
    (hwanting : c.answersHighlight s xs h = false) :
    (s, MarkerKind.highlight, h.span.start) ∈ plan.unanswered c trees := by
  refine List.mem_flatMap.mpr ⟨(s, xs), hs, List.mem_map_of_mem ?_⟩
  apply List.mem_append_left
  apply List.mem_append_right
  refine List.mem_map.mpr ⟨h, List.mem_filter.mpr ⟨List.mem_filter.mpr ⟨hasked, hcontains⟩, ?_⟩, rfl⟩
  rw [hwanting]
  rfl

namespace Answered
variable {job : Job} {plan : Plan} {c : Checker} {s : Section} {xs : List Identifier}

theorem highlights_eq {found : List Note}
    (h : highlights job plan (c.create s.path s.content) s xs = .ok found) :
    found = (plan.asked.highlights.filter fun h => s.contains h.span.start).flatMap (c.marked s xs) := by
  obtain ⟨lists, hlists, rfl⟩ := Outcome.map_eq_ok.mp h
  rw [List.flatMap_def]
  refine congrArg List.flatten (Outcome.eq_map_of_mapM hlists fun h _ notes hnotes => ?_)
  rw [highlight_create] at hnotes
  split at hnotes
  · cases hnotes
  · exact (Except.ok.inj hnotes).symm

theorem failure?_populated (hemit : plan.behaviour.showEmit = false) {trees : Option (List Tree)}
    {sections : List Section} (htrees : Tree.Supply trees (sections.filter plan.parses)) :
    Outcome.failure? (populated job plan (.ok c) trees sections) =
      (plan.unansweredAmong c (plan.readAll trees sections)).head?.map fun x =>
        unresolved job x.1 x.2.1 x.2.2 := by
  induction sections generalizing c trees with
  | nil => rfl
  | cons s rest ih =>
    -- The section can be read, so it fails only for its own first marker; else the later ones decide.
    obtain ⟨⟨xs, hxs⟩, hnext⟩ := Plan.exists_readSection htrees
    unfold populated Plan.readAll
    rw [Outcome.ok_bind]
    dsimp only
    rw [collected_of_not_showEmit hemit, treesAfter_of_not_showEmit hemit, hxs, Outcome.ok_bind,
      failure?_joined, failure?_notes, ih hnext, plan.unansweredAmong_create]
    dsimp only [Except.toOption, Option.getD_some]
    rw [plan.unansweredAmong_cons, List.head?_append, List.head?_map, Option.map_or, Option.map_map]
    rfl

end Answered

namespace Annotator
variable {a : Annotator} {q : Request} {w : World} {plan : Plan} {tags : List Note} {c : Checker}

theorem highlights_of_reading (hreading : a.reading q = .ok (plan, tags)) {h : Highlight}
    (hh : h ∈ Marker.highlights q.code) : h ∈ plan.asked.highlights := by
  obtain ⟨start, -, hread⟩ := Outcome.bind_eq_ok.mp hreading
  obtain ⟨flags, cuts, -, -, -, -, rfl⟩ := Plan.read_ok hread
  dsimp only
  rw [Marker.highlights_requests]
  exact List.mem_append_right _ hh

theorem behaviour_of_annotate (hreading : a.reading q = .ok (plan, tags))
    {r : Result} (h : (a.annotate q w).1 = .ok r) : r.plan.behaviour = plan.behaviour := by
  obtain ⟨plan', notes, hcollected, hending⟩ := exists_collected h
  obtain ⟨_, _, _, hreading', -⟩ := collected_ok hcollected
  rw [hreading] at hreading'
  cases hreading'
  exact Answered.behaviour_of_ending hending

section Served
variable (hreading : a.reading q = .ok (plan, tags)) (hemit : plan.behaviour.showEmit = false)
  (hserving : w.serving a.slot a.script plan.options = .ok c)
include hreading hemit hserving

/-- A call fails for the first marker without an answer, if there is one. -/
theorem annotate_of_unanswered (htrees : Tree.Supply w.trees plan.parsed) {s : Section}
    {kind : MarkerKind} {i : Int} (h : (plan.unanswered c w.trees).head? = some (s, kind, i)) :
    (a.annotate q w).1 = .error (Answered.unresolved (a.job q) s kind i) := by
  have hparsed : plan.parsed = plan.taken.filter plan.parses := by
    unfold Plan.parsed
    rw [hemit, if_neg Bool.false_ne_true]
    rfl
  rw [hparsed] at htrees
  have hfails : Outcome.failure? (Answered.populated (a.job q) plan (.ok c) w.trees plan.taken) = _ :=
    Answered.failure?_populated hemit htrees
  unfold Plan.unanswered Plan.identified at h
  rw [h] at hfails
  rw [annotate_eq_collected, collected, hreading, Outcome.ok_bind]
  dsimp only
  rw [hserving, Outcome.failure?_eq_some.mp hfails]
  rfl

theorem highlights_of_annotate {r : Result} (h : (a.annotate q w).1 = .ok r) :
    (r.notes.filter (Note.isOf "highlight")).Perm
      ((((plan.identified w.trees).flatMap fun y =>
        (plan.asked.highlights.filter fun h => y.1.contains h.span.start).flatMap
          (c.marked y.1 y.2)).filter (a.job q).keeps).filterMap (plan.left? r.code)) := by
  rw [← behaviour_of_annotate hreading h] at hemit
  obtain ⟨_, _, parts, hagain, -, hparts, hkind⟩ := exists_of_kind h hemit
  rw [hreading] at hagain
  cases hagain
  rw [hserving] at hparts
  have hfound : parts.flatten.filter (Note.isOf "highlight") =
      (plan.identified w.trees).flatMap fun y =>
        (plan.asked.highlights.filter fun h => y.1.contains h.span.start).flatMap
          (c.marked y.1 y.2) := by
    rw [← List.filterMap_eq_filter]
    refine Outcome.filterMap_flatten_of_mapM hparts fun y _ notes hnoted => ?_
    rw [List.filterMap_eq_filter]
    exact Answered.highlights_eq (Answered.filter_notes hnoted).1
  rw [← hfound]
  exact hkind "highlight" (by decide) (by decide)

end Served

/-- The highlights of a call that shows its sample.  What a marker highlights is asked for, and it marks
the known identifiers of its section that overlap the carets or touch them, each with the label.  If
there is none, the call fails for the first marker without an answer.  The highlights of the result
are, apart from their order, what erasure leaves of those that are marked and kept. -/
theorem highlights_perm (a : Annotator) (q : Request) (w : World) (plan : Plan) (tags : List Note)
    (c : Checker) (hreading : a.reading q = .ok (plan, tags))
    (hemit : plan.behaviour.showEmit = false)
    (hserving : w.serving a.slot a.script plan.options = .ok c)
    (htrees : Tree.Supply w.trees plan.parsed) :
    (plan.identified w.trees).map Prod.fst = plan.sections.filter plan.registers ∧
      (∀ h ∈ Marker.highlights q.code, h ∈ plan.asked.highlights ∧
        ∀ s xs, (s, xs) ∈ plan.identified w.trees → s.contains h.span.start = true →
          c.marked s xs h = (xs.filter fun x =>
              x.span.start ≤ h.span.stop && h.span.start ≤ x.span.stop).filterMap (fun x =>
            (c.infoIn s.content (x.span.start - s.offset)).map (Answered.highlightNote h.label x)) ∧
          (c.marked s xs h = [] → ∃ t kind i,
            (plan.unanswered c w.trees).head? = some (t, kind, i) ∧ (a.annotate q w).1 =
              .error (.unresolvedMarker kind (Work.markerLine (a.job q) i) t.filename))) ∧
      ∀ r, (a.annotate q w).1 = .ok r → (r.notes.filter (Note.isOf "highlight")).Perm
        ((((plan.identified w.trees).flatMap fun (s, xs) =>
          (plan.asked.highlights.filter fun h => s.contains h.span.start).flatMap
            (c.marked s xs)).filter (a.job q).keeps).filterMap (plan.left? r.code)) := by
  refine ⟨plan.map_fst_readAll w.trees plan.taken, ?_, ?_⟩
  · intro h hh
    have hasked := highlights_of_reading hreading hh
    refine ⟨hasked, fun s xs hs hcontains => ⟨?_, ?_⟩⟩
    · exact c.marked_eq s (plan.start_le_stop_of_mem_readAll _ _ _ hs)
        (Marker.start_le_stop_of_mem_highlights hh)
    · intro hnone
      have hwanting : c.answersHighlight s xs h = false := by
        rw [← Bool.not_eq_true', ← c.isEmpty_marked, hnone]
        rfl
      have hmem : (s, MarkerKind.highlight, h.span.start) ∈ plan.unanswered c w.trees :=
        Plan.highlight_mem_unanswered hs hasked hcontains hwanting
      obtain ⟨⟨t, kind, i⟩, hfirst⟩ : ∃ x, (plan.unanswered c w.trees).head? = some x :=
        Option.isSome_iff_exists.mp (List.isSome_head?.mpr (List.ne_nil_of_mem hmem))
      exact ⟨t, kind, i, hfirst,
        annotate_of_unanswered hreading hemit hserving htrees hfirst⟩
  · intro r h
    exact highlights_of_annotate hreading hemit hserving h

/-- The carets stand below the first of two identifiers. -/
theorem highlights_perm_example :
    let a : Annotator :=
      { script := { quickInfo := [("ab", .str "let ab"), ("cd", .str "let cd")] }, declarations := [] }
    let q : Request := { code := "let ab = cd\n//  ^^ first\n".toList }
    ∃ plan tags c r, a.reading q = .ok (plan, tags) ∧ plan.behaviour.showEmit = false ∧
      ({} : World).serving a.slot a.script plan.options = .ok c ∧
      Tree.Supply none plan.parsed ∧ (a.annotate q {}).1 = .ok r ∧
      (r.notes.filter (Note.isOf "highlight")).map (fun n => (n.start, n.body)) =
        [(4, .highlight ⟨"let ab", none, "ab"⟩ (some "first"))] ∧
      (r.notes.filter (Note.isOf "highlight")).Perm
        ((((plan.identified none).flatMap fun (s, xs) =>
          (plan.asked.highlights.filter fun h => s.contains h.span.start).flatMap
            (c.marked s xs)).filter (a.job q).keeps).filterMap (plan.left? r.code)) := by
  intro a q
  have hrun : ((a.annotate q {}).1.toOption.map fun r =>
      (r.notes.filter (Note.isOf "highlight")).map fun n => (n.start, n.body)) =
        some [(4, .highlight ⟨"let ab", none, "ab"⟩ (some "first"))] := by
    decide +kernel
  have hplan : ((a.reading q).toOption.map fun x => (x.1.behaviour.showEmit,
      (({} : World).serving a.slot a.script x.1.options).toOption.map fun _ => ())) =
        some (false, some ()) := by
    decide +kernel
  obtain ⟨r, hr, hnotes⟩ := Outcome.exists_ok_of_toOption_map hrun
  obtain ⟨⟨plan, tags⟩, hread, hvalues⟩ := Outcome.exists_ok_of_toOption_map hplan
  obtain ⟨hemit, hserves⟩ := Prod.mk.inj hvalues
  obtain ⟨c, hserving, -⟩ := Outcome.exists_ok_of_toOption_map hserves
  have hsupply : Tree.Supply none plan.parsed := fun ts hts => by cases hts
  have hperm := (highlights_perm a q {} plan tags c hread hemit hserving hsupply).2.2 r hr
  exact ⟨plan, tags, c, r, hread, hemit, hserving, hsupply, hr, hnotes, hperm⟩

/-- The carets stand between two identifiers and have no character with either of them, but the call
does not fail and marks both. -/
theorem highlights_counterexample :
    let a : Annotator :=
      { script := { quickInfo := [("foo", .str "let foo"), ("bar", .str "let bar")] }
        declarations := [] }
    let q : Request := { code := "foo = bar\n// ^^^\n".toList }
    ∃ plan tags r, a.reading q = .ok (plan, tags) ∧ plan.behaviour.showEmit = false ∧
      Marker.highlights q.code = [⟨⟨3, 6⟩, none⟩] ∧ plan.asked.highlights = [⟨⟨3, 6⟩, none⟩] ∧
      (plan.identified none).map (fun y => (y.1.contains 3, y.2.map Identifier.span)) =
        [(true, [⟨0, 3⟩, ⟨6, 9⟩])] ∧
      (∀ y ∈ plan.identified none, ∀ x ∈ y.2, ¬ (x.span.start < 6 ∧ 3 < x.span.stop)) ∧
      (a.annotate q {}).1 = .ok r ∧
      (r.notes.filter (Note.isOf "highlight")).map Note.start = [0, 6] := by
  intro a q
  have hrun : ((a.annotate q {}).1.toOption.map fun r =>
      (r.notes.filter (Note.isOf "highlight")).map Note.start) = some [0, 6] := by
    decide +kernel
  have hplan : ((a.reading q).toOption.map fun x => (x.1.behaviour.showEmit, x.1.asked.highlights,
      (x.1.identified none).map fun y => (y.1.contains 3, y.2.map Identifier.span))) =
        some (false, [⟨⟨3, 6⟩, none⟩], [(true, [⟨0, 3⟩, ⟨6, 9⟩])]) := by
    decide +kernel
  obtain ⟨r, hr, hnotes⟩ := Outcome.exists_ok_of_toOption_map hrun
  obtain ⟨⟨plan, tags⟩, hread, hvalues⟩ := Outcome.exists_ok_of_toOption_map hplan
  simp only [Prod.mk.injEq] at hvalues
  obtain ⟨hemit, hasked, hspans⟩ := hvalues
  refine ⟨plan, tags, r, hread, hemit, by decide, hasked, hspans, ?_, hr, hnotes⟩
  intro y hy x hx
  obtain ⟨z, hz, hall⟩ := List.map_eq_singleton_iff.mp hspans
  rw [hz] at hy
  obtain rfl := List.mem_singleton.mp hy
  have hmem : x.span ∈ [(⟨0, 3⟩ : Span), ⟨6, 9⟩] := (Prod.mk.inj hall).2 ▸ List.mem_map_of_mem hx
  have hapart : ∀ t ∈ [(⟨0, 3⟩ : Span), ⟨6, 9⟩], ¬ (t.start < 6 ∧ 3 < t.stop) := by decide
  exact hapart x.span hmem

end Annotator

end Marginalia
