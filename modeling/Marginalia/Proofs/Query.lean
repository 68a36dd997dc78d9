import Marginalia.Proofs.Hover

/-!
# Which answers to queries survive

The note of a query starts at the caret and is as long as the whole identifier under it.  It reaches
past the identifier unless the caret stands at its first character, and it is lost when what it
reaches into is erased, be it the line of its own marker.
-/

namespace Marginalia
set_option autoImplicit false

namespace Answered
variable {job : Job} {plan : Plan} {c : Checker} {s : Section} {xs : List Identifier} {i : Int}
  {n : Note}

theorem exists_mem_noted {p : Except Failure Checker} {notes : List Note}
    (h : noted job plan p (s, xs) = .ok notes) (hi : i ∈ plan.asked.queries)
    (hs : s.contains i = true) :
    ∃ x known, xs.find? (·.span.touches i) = some x ∧ queryNote i x known ∈ notes := by
  obtain ⟨c, -, h⟩ := Outcome.bind_eq_ok.mp h
  obtain ⟨_, qs, _, _, -, hqueries, -, -, rfl⟩ := notes_ok h
  obtain ⟨n, hn, hquery⟩ :=
    Outcome.exists_mem_of_mapM hqueries (List.mem_filter.mpr ⟨hi, hs⟩)
  obtain ⟨x, known, hx, rfl⟩ := query_ok hquery
  exact ⟨x, known, hx, List.mem_append_right _ (List.mem_append_left _ hn)⟩

theorem query_of_mem_noted {p : Except Failure Checker} {notes : List Note} {info : Info}
    (h : noted job plan p (s, xs) = .ok notes) (hn : n ∈ notes) (hbody : n.body = .query info) :
    ∃ i x known, s.contains i = true ∧ n = queryNote i x known := by
  cases tells_of_mem_noted h hn with
  | query known hi hs hx => exact ⟨_, _, known, hs, rfl⟩
  | hover => cases hbody
  | highlight => cases hbody
  | completion => cases hbody

end Answered

theorem Plan.settled_queryNote (plan : Plan) (i : Int) (x : Identifier) (known : QuickInfo) :
    plan.settled (Answered.queryNote i x known) =
      { Answered.queryNote i x known with
        start := Span.eraseStart x.text.length i plan.removals } :=
  plan.settled_of_not_tag rfl

theorem Note.mem_resolveAll_iff {code : List Char} {notes : List Note} {n : Note} :
    n ∈ resolveAll code notes ↔ ∃ m ∈ notes, 0 ≤ m.start ∧ n = m.resolve code := by
  refine ⟨mem_resolveAll, ?_⟩
  rintro ⟨m, hm, hstart, rfl⟩
  refine List.mem_map_of_mem ?_
  rw [Sorting.mem_sort_iff]
  exact List.mem_filter.mpr ⟨hm, decide_eq_true hstart⟩

namespace Result.Gathered
variable {r : Result} {a : Annotator} {q : Request} {w : World} {plan : Plan} {tags : List Note}
  {parts : List (List Note)} {errors : List Note} (h : r.Gathered a q w plan tags parts errors)
include h

theorem query_of_mem {n : Note} {info : Info} (hn : n ∈ r.notes) (hbody : n.body = .query info) :
    ∃ (i : Nat) (x : Identifier), 0 ≤ Span.eraseStart x.text.length i plan.removals ∧
      n.start = Span.eraseStart x.text.length i plan.removals ∧ n.length = x.text.length := by
  rw [h.notes] at hn
  obtain ⟨_, hsettled, hleft, rfl⟩ := Note.mem_resolveAll hn
  obtain ⟨m, hm, rfl⟩ := List.mem_map.mp hsettled
  have hquery : m.body = .query info := (plan.body_settled m).symm.trans hbody
  have hfound : m ∈ parts.flatten := by
    rcases List.mem_append.mp hm with hm | hm
    · rcases List.mem_append.mp hm with hm | hm
      · obtain ⟨_, _, htag⟩ := h.tagged m hm
        rw [htag] at hquery
        cases hquery
      · exact hm
    · obtain ⟨_, _, _, _, _, herror⟩ := h.reported m hm
      rw [herror] at hquery
      cases hquery
  obtain ⟨part, hpart, hmem⟩ := List.mem_flatten.mp hfound
  obtain ⟨⟨s, xs⟩, -, hnoted⟩ := Outcome.exists_of_mem_mapM h.noted hpart
  obtain ⟨i, x, known, hs, rfl⟩ := Answered.query_of_mem_noted hnoted hmem hquery
  obtain ⟨first, rfl⟩ := Int.eq_ofNat_of_zero_le (Section.nonneg_of_contains hs)
  rw [plan.settled_queryNote] at hleft ⊢
  exact ⟨first, x, hleft, rfl, rfl⟩

theorem mem_of_query {part : List Note} (hpart : part ∈ parts) {i : Nat} {x : Identifier}
    {known : QuickInfo} (hnote : Answered.queryNote i x known ∈ part)
    (hleft : 0 ≤ Span.eraseStart x.text.length i plan.removals) :
    ∃ n ∈ r.notes, n.start = Span.eraseStart x.text.length i plan.removals ∧
      n.length = x.text.length ∧ ∃ info, n.body = .query info := by
  have hsettled := plan.settled_queryNote i x known
  let n := plan.settled (Answered.queryNote i x known)
  have hn : n ∈ (tags ++ parts.flatten ++ errors).map plan.settled := by
    apply List.mem_map_of_mem
    apply List.mem_append_left
    apply List.mem_append_right
    exact List.mem_flatten.mpr ⟨part, hpart, hnote⟩
  have hstart : n.start = Span.eraseStart x.text.length i plan.removals :=
    congrArg Note.start hsettled
  refine ⟨n.resolve r.code, ?_, hstart, congrArg Note.length hsettled, _, plan.body_settled _⟩
  rw [h.notes]
  refine Note.mem_resolveAll_iff.mpr ⟨n, hn, ?_, rfl⟩
  rw [hstart]
  exact hleft

/-- The answer to a query at an index that stays is left exactly if nothing that it reaches into is
erased. -/
theorem query_left_iff {start : Plan} {vocabulary : Flag.Vocabulary} {root : String}
    (hread : start.read vocabulary root q.code = .ok (plan, tags)) {part : List Note}
    (hpart : part ∈ parts) {i : Nat} {x : Identifier} {known : QuickInfo}
    (hnote : Answered.queryNote i x known ∈ part) (hstays : Span.stays plan.removals i = true) :
    (∃ n ∈ r.notes, n.start = Text.countBelow (Span.stays plan.removals) i ∧
        n.length = x.text.length ∧ ∃ info, n.body = .query info) ↔
      ∀ k, i ≤ k → k < i + x.text.length → Span.stays plan.removals k = true := by
  have hproper := Plan.removals_proper hread
  constructor
  · rintro ⟨n, hn, hstart, hlength, _, hbody⟩ k hk hlt
    obtain ⟨j, y, hleft, hplace, hsize⟩ := h.query_of_mem hn hbody
    have hsame : y.text.length = x.text.length := Int.ofNat.inj (hsize.symm.trans hlength)
    have hfree := (Span.eraseStart_nonneg_iff hproper (Int.natCast_nonneg j)
      (Int.natCast_nonneg y.text.length)).mp hleft
    have hall : ∀ k : Nat, j ≤ k → k < j + y.text.length → Span.stays plan.removals k = true :=
      fun k hk hlt => Span.stays_of_not_strikes hfree (by omega) (by omega)
    -- What is left at the place of the query can only be its own answer.
    have hindex : j = i := by
      have hmoved := Span.eraseStart_eq_countBelow hproper hleft
      refine Span.countBelow_stays_inj (hall j (Nat.le_refl _) (by omega)) hstays ?_
      exact Int.ofNat.inj (hmoved.symm.trans (hplace.symm.trans hstart))
    exact hall k (by omega) (by omega)
  · intro hall
    have hleft :=
      (Span.eraseStart_nonneg_iff_stays hproper (Plan.removals_filled hread) hstays).mpr hall
    rw [← Span.eraseStart_eq_countBelow hproper hleft]
    exact h.mem_of_query hpart hnote hleft

end Result.Gathered

/-- When a query at an index that stays is found answered in the result: exactly if nothing is
erased in the stretch that begins at the caret and has the length of the identifier under it.  That
is always so if the caret stands at the first character of an identifier within one line. -/
theorem Annotator.query_note_iff (a : Annotator) (q : Request) (w : World) (r : Result)
    (h : (a.annotate q w).1 = .ok r)
    (hemit : r.plan.behaviour.showEmit = false) (hkeep : r.plan.behaviour.keepNotations = false)
    (hkept : (a.job q).kept = none) :
    ∃ plan tags, a.reading q = .ok (plan, tags) ∧
      (plan.identified w.trees).map Prod.fst = plan.sections.filter plan.registers ∧
      ∀ s xs, (s, xs) ∈ plan.identified w.trees → ∀ i : Nat, (i : Int) ∈ plan.asked.queries →
        s.contains i = true → plan.removes i = false →
        ∃ x, xs.find? (·.span.touches i) = some x ∧
          ((∃ n ∈ r.notes, n.start = Text.countBelow (Span.stays plan.removals) i ∧
              n.length = x.text.length ∧ ∃ info, n.body = .query info) ↔
            ∀ k, i ≤ k → k < i + x.text.length → Span.stays plan.removals k = true) ∧
          (x.span.start = i → x.StandsIn q.code → '\n' ∉ x.text →
            ∃ n ∈ r.notes, n.start = Text.countBelow (Span.stays plan.removals) i ∧
              n.length = x.text.length ∧ ∃ info, n.body = .query info) := by
  obtain ⟨plan, tags, parts, errors, hgathered⟩ := exists_gathered h hemit hkeep hkept
  obtain ⟨start, -, hread⟩ := Outcome.bind_eq_ok.mp hgathered.reading
  refine ⟨plan, tags, hgathered.reading, plan.map_fst_readAll w.trees plan.taken, ?_⟩
  intro s xs hmem i hi hs hstays
  obtain ⟨part, hpart, hnoted⟩ := Outcome.exists_mem_of_mapM hgathered.noted hmem
  obtain ⟨x, known, hx, hnote⟩ := Answered.exists_mem_noted hnoted hi hs
  rw [Plan.removes_eq, Bool.not_eq_false'] at hstays
  have hiff := hgathered.query_left_iff hread hpart hnote hstays
  refine ⟨x, hx, hiff, ?_⟩
  intro hfirst hstands hfeed
  exact hiff.mpr (Plan.stays_of_standsIn hread hstands hfeed hfirst hstays)

/-- The caret stands at the second of three characters, and what follows them in their line is long
enough. -/
theorem Annotator.query_note_iff_example :
    let a : Annotator := { script := { quickInfo := [("abc", .str "let abc")] }, declarations := [] }
    let q : Request := { code := "let abc = 1\n//   ^?\n".toList }
    ∃ r plan tags x, (a.annotate q {}).1 = .ok r ∧
      r.plan.behaviour.showEmit = false ∧ r.plan.behaviour.keepNotations = false ∧
      (a.job q).kept = none ∧ a.reading q = .ok (plan, tags) ∧
      (∃ n ∈ r.notes, n.start = Text.countBelow (Span.stays plan.removals) 5 ∧
        n.length = (x : Identifier).text.length ∧ ∃ info, n.body = .query info) := by
  intro a q
  have hrun : ((a.annotate q {}).1.toOption.map fun r =>
      (r.plan.behaviour.showEmit, r.plan.behaviour.keepNotations)) = some (false, false) := by
    decide +kernel
  have hplan : ((a.reading q).toOption.map fun x => (x.1.asked.queries,
      [x.1.removes 5, (List.range 3).all fun k => Span.stays x.1.removals (5 + k)],
      (x.1.identified none).map fun y =>
        (y.1.contains 5, (y.2.find? (·.span.touches 5)).map fun z => z.text.length))) =
        some ([5], [false, true], [(true, some 3)]) := by
    decide +kernel
  obtain ⟨r, hr, hvalues⟩ := Outcome.exists_ok_of_toOption_map hrun
  obtain ⟨hemit, hkeep⟩ := Prod.mk.inj hvalues
  obtain ⟨plan, tags, hread, -, hall⟩ := query_note_iff a q {} r hr hemit hkeep rfl
  rw [hread] at hplan
  simp only [Except.toOption, Option.map_some, Option.some.injEq, Prod.mk.injEq,
    List.cons.injEq, and_true] at hplan
  obtain ⟨hqueries, ⟨hstays, hkept⟩, hsections⟩ := hplan
  obtain ⟨⟨s, xs⟩, hidentified, hsection⟩ := List.map_eq_singleton_iff.mp hsections
  obtain ⟨hcontains, hlength⟩ := Prod.mk.inj hsection
  have hmem : (s, xs) ∈ plan.identified none := by
    rw [hidentified]
    exact List.mem_singleton_self _
  obtain ⟨x, hx, hiff, -⟩ := hall s xs hmem 5 (by rw [hqueries]; exact List.mem_singleton_self _)
    hcontains hstays
  have hsize : x.text.length = 3 := by
    have hfind : xs.find? (·.span.touches 5) = some x := hx
    dsimp only at hlength
    rw [hfind] at hlength
    exact Option.some.inj hlength
  refine ⟨r, plan, tags, x, hr, hemit, hkeep, rfl, hread, hiff.mpr ?_⟩
  intro k hk hlt
  have hstay := List.all_eq_true.mp hkept (k - 5) (List.mem_range.mpr (by omega))
  rwa [show 5 + (k - 5) = k by omega] at hstay

/-- The caret stands at the last but one character, so the answer reaches into the line of its own
marker and is lost. -/
theorem Annotator.query_note_counterexample :
    let a : Annotator := { script := { quickInfo := [("abcdef", .str "let abcdef: any")] } }
    let q : Request := { code := "let abcdef\n//       ^?\n".toList }
    ∃ r plan tags s, (a.annotate q {}).1 = .ok r ∧ r.plan.behaviour.showEmit = false ∧
      r.plan.behaviour.keepNotations = false ∧ (a.job q).kept = none ∧
      a.reading q = .ok (plan, tags) ∧ s ∈ plan.sections ∧ plan.registers s = true ∧
      9 ∈ plan.asked.queries ∧ s.contains 9 = true ∧ plan.removes 9 = false ∧
      Text.countBelow (Span.stays plan.removals) 9 = 9 ∧
      ¬ ∃ n ∈ r.notes, ∃ info, n.body = .query info := by
  intro a q
  have hrun : ((a.annotate q {}).1.toOption.map fun r => (r.plan.behaviour.showEmit,
      r.plan.behaviour.keepNotations, r.notes.map Note.kindName)) =
        some (false, false, ["hover"]) := by
    decide +kernel
  have hplan : ((a.reading q).toOption.map fun x => (x.1.asked.queries, x.1.removes 9,
      x.1.sections.map fun s => (x.1.registers s, s.contains 9),
      Text.countBelow (Span.stays x.1.removals) 9)) =
        some ([9], false, [(true, true)], 9) := by
    decide +kernel
  obtain ⟨r, hr, hvalues⟩ := Outcome.exists_ok_of_toOption_map hrun
  simp only [Prod.mk.injEq] at hvalues
  obtain ⟨hemit, hkeep, hkinds⟩ := hvalues
  obtain ⟨⟨plan, tags⟩, hread, hvalues⟩ := Outcome.exists_ok_of_toOption_map hplan
  simp only [Prod.mk.injEq] at hvalues
  obtain ⟨hqueries, hstays, hsections, hcount⟩ := hvalues
  obtain ⟨s, hs, hsection⟩ := List.map_eq_singleton_iff.mp hsections
  obtain ⟨hregisters, hcontains⟩ := Prod.mk.inj hsection
  refine ⟨r, plan, tags, s, hr, hemit, hkeep, rfl, hread, ?_, hregisters, ?_, hcontains, hstays,
    hcount, ?_⟩
  · rw [hs]
    exact List.mem_singleton_self s
  · rw [hqueries]
    exact List.mem_singleton_self 9
  · rintro ⟨n, hn, info, hbody⟩
    have hmem := List.mem_map_of_mem (f := Note.kindName) hn
    rw [hkinds, List.mem_singleton, Note.kindName, hbody] at hmem
    have hname : "query" = "hover" := hmem
    exact absurd hname (by decide)

end Marginalia
