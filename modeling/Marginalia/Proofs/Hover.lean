import Mathlib.Data.List.Basic
import Marginalia.Proofs.Collected

/-!
# Hovers are neither lost nor invented

Whether an identifier gets a hover is decided at its first character, before erasure.  Erasure then
goes by all of its characters.  Both say the same, because an identifier stands in one line.
-/

namespace Marginalia
set_option autoImplicit false

namespace Note

/-- The start, the length and the information of a hover. -/
def hovering? (n : Note) : Option (Int × Int × Info) :=
  match n.body with
  | .hover info => some (n.start, n.length, info)
  | _ => none

theorem hovering?_eq_none {n : Note} (h : ∀ info, n.body ≠ .hover info) : n.hovering? = none := by
  unfold hovering?
  split
  · next info hbody => exact absurd hbody (h info)
  · rfl

theorem filterMap_resolveAll_perm {β : Type} {g : Note → Option β}
    (hg : ∀ code n, g (resolve code n) = g n) (code : List Char) (notes : List Note) :
    ((resolveAll code notes).filterMap g).Perm
      (notes.filterMap fun n => if 0 ≤ n.start then g n else none) := by
  have hsorted := (Sorting.sort_perm precedes (notes.filter fun n => 0 ≤ n.start)).filterMap g
  unfold resolveAll
  rw [List.filterMap_map]
  have hsame : g ∘ resolve code = g := funext (hg code)
  rw [hsame]
  rw [List.filterMap_filter] at hsorted
  simpa only [decide_eq_true_eq] using hsorted

end Note

namespace Plan

/-- The hover of an identifier that is known: as many characters stand before it as are kept of
those before the identifier. -/
def hoverOf (plan : Plan) (x : Identifier) (known : QuickInfo) : Int × Int × Info :=
  (Text.countBelow (Span.stays plan.removals) x.span.start.toNat, x.text.length,
    Work.infoOf x.text known)

/-- The hover of an identifier that stays, is wanted and is known. -/
def hovered? (plan : Plan) (job : Job) (p : Except Failure Checker) (s : Section) (x : Identifier) :
    Option (Int × Int × Info) :=
  if plan.removes x.span.start || !job.wants s x then none
  else (p.toOption.bind fun c => c.infoIn s.content (x.span.start - s.offset)).map (plan.hoverOf x)

def hoverLeft? (plan : Plan) (n : Note) : Option (Int × Int × Info) :=
  if 0 ≤ (plan.settled n).start then (plan.settled n).hovering? else none

theorem hoverLeft?_eq_none (plan : Plan) {n : Note} (h : ∀ info, n.body ≠ .hover info) :
    plan.hoverLeft? n = none := by
  unfold hoverLeft?
  split
  · apply Note.hovering?_eq_none
    rw [body_settled]
    exact h
  · rfl

theorem filterMap_hoverLeft_eq_nil (plan : Plan) {notes : List Note}
    (h : ∀ n ∈ notes, ∀ info, n.body ≠ .hover info) : notes.filterMap plan.hoverLeft? = [] :=
  List.filterMap_eq_nil_iff.mpr fun n hn => plan.hoverLeft?_eq_none (h n hn)

theorem hoverLeft?_hoverNote {start plan : Plan} {vocabulary : Flag.Vocabulary} {root : String}
    {code : List Char} {tags : List Note}
    (h : start.read vocabulary root code = .ok (plan, tags)) {x : Identifier} (hx : x.StandsIn code)
    (hfeed : '\n' ∉ x.text) (hstays : plan.removes x.span.start = false) (known : QuickInfo) :
    plan.hoverLeft? (Answered.hoverNote x known) = some (plan.hoverOf x known) := by
  obtain ⟨i, hspan, hstop, htext⟩ := hx
  have hx : x.StandsIn code := ⟨i, hspan, hstop, htext⟩
  have hi : x.span.start = i := congrArg Span.start hspan
  have hproper := removals_proper h
  rw [hi, removes_eq, Bool.not_eq_false'] at hstays
  have hall := stays_of_standsIn h hx hfeed hi hstays
  have hkept := (Span.eraseStart_nonneg_iff_stays hproper (removals_filled h) hstays).mpr hall
  have hmoved := Span.eraseStart_eq_countBelow hproper hkept
  have hsettled : plan.settled (Answered.hoverNote x known) =
      { Answered.hoverNote x known with
        start := Text.countBelow (Span.stays plan.removals) x.span.start.toNat } := by
    rw [settled_of_not_tag plan rfl]
    unfold Note.erase Answered.hoverNote
    dsimp only
    rw [hi, hmoved, Int.toNat_natCast]
  unfold hoverLeft?
  rw [hsettled, if_pos (Int.natCast_nonneg _)]
  rfl

end Plan

namespace Answered
variable {job : Job} {plan : Plan} {s : Section} {c : Checker} {n : Note} {notes : List Note}
  {xs : List Identifier}

theorem hover_create (x : Identifier) :
    hover job plan (c.create s.path s.content) s x = .ok
      (if plan.removes x.span.start || !job.wants s x then none
      else (c.infoIn s.content (x.span.start - s.offset)).map (hoverNote x)) := by
  unfold hover
  rw [Checker.infoAt_create_self]
  cases plan.removes x.span.start with
  | true => rfl
  | false => cases job.wants s x <;> rfl

theorem filterMap_hoverLeft {p : Except Failure Checker}
    (h : noted job plan p (s, xs) = .ok notes)
    (hstatic : plan.behaviour.noStaticSemanticInfo = false)
    (hleft : ∀ x ∈ xs, plan.removes x.span.start = false → ∀ known,
      plan.hoverLeft? (hoverNote x known) = some (plan.hoverOf x known)) :
    notes.filterMap plan.hoverLeft? = xs.filterMap (plan.hovered? job p s) := by
  obtain ⟨c, rfl, h⟩ := Outcome.bind_eq_ok.mp h
  obtain ⟨hs, qs, ms, cs, hhovers, hqueries, hhighlights, hcompletions, rfl⟩ := notes_ok h
  have hrest : (qs ++ (ms ++ cs)).filterMap plan.hoverLeft? = [] := by
    apply plan.filterMap_hoverLeft_eq_nil
    intro n hn info hbody
    rcases List.mem_append.mp hn with hn | hn
    · obtain ⟨_, _, _, _, -, -, -, rfl⟩ := exists_of_mem_queries hqueries hn
      cases hbody
    · rcases List.mem_append.mp hn with hn | hn
      · obtain ⟨_, _, _, -, rfl⟩ := exists_of_mem_highlights hhighlights hn
        cases hbody
      · obtain ⟨_, _, -, -, rfl⟩ := exists_of_mem_completions hcompletions hn
        cases hbody
  unfold hovers at hhovers
  rw [hstatic, if_neg Bool.false_ne_true, Outcome.filterMapM_of_ok fun x _ => hover_create x] at hhovers
  cases hhovers
  rw [List.filterMap_append, hrest, List.append_nil, List.filterMap_filterMap]
  apply List.filterMap_congr
  intro x hx
  unfold Plan.hovered?
  cases hremoves : plan.removes x.span.start with
  | true => rfl
  | false =>
    cases job.wants s x with
    | false => rfl
    | true =>
      dsimp only [Except.toOption]
      cases hknown : c.infoIn s.content (x.span.start - s.offset) with
      | none => simp [hknown]
      | some known => simpa [hknown] using hleft x hx hremoves known

end Answered

namespace Plan
variable {plan : Plan} {code : List Char} {trees : Option (List Tree)} {sections : List Section}

theorem fit_readSection (code : List Char) {s : Section}
    (hfit : Tree.Fit trees ((s :: sections).filter plan.parses)) :
    Tree.Fit (plan.readSection trees s).2 (sections.filter plan.parses) ∧
      ∀ xs, (plan.readSection trees s).1 = .ok xs → s.PartOf code → ∀ x ∈ xs, x.StandsIn code := by
  unfold readSection
  split
  · next hasks =>
    cases hgrammar : Language.grammar? s.extension with
    | none =>
      have hparses : ¬ plan.parses s = true := by simp [parses, hgrammar]
      rw [List.filter_cons_of_neg hparses] at hfit
      unfold Section.read World.identifiers
      rw [hgrammar]
      refine ⟨hfit, ?_⟩
      rintro xs ⟨⟩ - x hx
      exact absurd hx List.not_mem_nil
    | some grammar =>
      have hsome : (Language.grammar? s.extension).isSome = true := by rw [hgrammar]; rfl
      have hparses : plan.parses s = true := by rw [parses, hasks, hsome]; rfl
      rw [List.filter_cons_of_pos hparses] at hfit
      refine ⟨?_, ?_⟩
      · unfold Section.read World.identifiers
        rw [hgrammar]
        cases trees with
        | none => exact fun ts hts => by cases hts
        | some ts =>
          cases ts with
          | nil => exact fun ts hts x hx => by cases hts; cases hx
          | cons t ts => exact hfit.tail
      · intro xs hxs hpart x hx
        obtain ⟨found, hfound, rfl⟩ := Outcome.map_eq_ok.mp hxs
        obtain ⟨y, hy, rfl⟩ := List.mem_map.mp hx
        have hrun : ({ trees } : World).identifiers s.content s.extension = (.ok found, _) :=
          Prod.ext hfound rfl
        exact ((World.identifiers_ok hrun hsome hfit).1 y hy).shift hpart.content hpart.stop
  · next hasks =>
    have hparses : ¬ plan.parses s = true := by simp [parses, hasks]
    rw [List.filter_cons_of_neg hparses] at hfit
    refine ⟨hfit, ?_⟩
    rintro xs ⟨⟩ - x hx
    exact absurd hx List.not_mem_nil

theorem standsIn_of_mem_readAll (hfit : Tree.Fit trees (sections.filter plan.parses))
    (hparts : ∀ s ∈ sections, s.PartOf code) :
    ∀ y ∈ plan.readAll trees sections, ∀ x ∈ y.2, x.StandsIn code := by
  induction sections generalizing trees with
  | nil => exact fun y hy => absurd hy List.not_mem_nil
  | cons s rest ih =>
    obtain ⟨hnext, hhere⟩ := fit_readSection code hfit
    intro y hy x hx
    rcases List.mem_cons.mp hy with rfl | hy
    · dsimp only at hx
      cases hread : (plan.readSection trees s).1 with
      | error e =>
        rw [hread] at hx
        exact absurd hx List.not_mem_nil
      | ok xs =>
        rw [hread] at hx
        exact hhere xs hread (hparts s List.mem_cons_self) x hx
    · exact ih hnext (fun t ht => hparts t (List.mem_cons_of_mem s ht)) y hy x hx

theorem exists_token_of_mem_readAll (sections : List Section) :
    ∀ y ∈ plan.readAll none sections, ∀ x ∈ y.2,
      ∃ z ∈ Token.identifiers y.1.content, x = z.shift y.1.offset := by
  have hsection : ∀ s, (plan.readSection none s).2 = none ∧
      ∀ x ∈ (plan.readSection none s).1.toOption.getD [],
        ∃ z ∈ Token.identifiers s.content, x = z.shift s.offset := by
    intro s
    unfold readSection Section.read World.identifiers
    split
    · cases Language.grammar? s.extension with
      | none => exact ⟨rfl, fun x hx => absurd hx List.not_mem_nil⟩
      | some grammar =>
        refine ⟨rfl, ?_⟩
        intro x hx
        obtain ⟨z, hz, rfl⟩ := List.mem_map.mp hx
        split at hz
        · exact absurd hz List.not_mem_nil
        · exact ⟨z, hz, rfl⟩
    · exact ⟨rfl, fun x hx => absurd hx List.not_mem_nil⟩
  induction sections with
  | nil => exact fun y hy => absurd hy List.not_mem_nil
  | cons s rest ih =>
    obtain ⟨hnone, hhere⟩ := hsection s
    intro y hy
    rcases List.mem_cons.mp hy with rfl | hy
    · exact hhere
    · rw [hnone] at hy
      exact ih y hy

theorem no_feed_of_mem_readAll (sections : List Section) :
    ∀ y ∈ plan.readAll none sections, ∀ x ∈ y.2, '\n' ∉ x.text := by
  intro y hy x hx
  obtain ⟨z, hz, rfl⟩ := exists_token_of_mem_readAll sections y hy x hx
  exact Token.no_feed_of_mem_identifiers z hz

theorem readAll_removals (plan : Plan) (removals : List Span) (trees : Option (List Tree))
    (sections : List Section) :
    { plan with removals }.readAll trees sections = plan.readAll trees sections := by
  induction sections generalizing trees with
  | nil => rfl
  | cons s rest ih =>
    unfold readAll
    rw [← ih]
    rfl

end Plan

/-- The hovers of a result are, apart from their order, one for each identifier of a registered
section whose first character stays, that is wanted and that the checker knows.  The trees that are
supplied are taken to keep within the texts and to have identifiers within one line. -/
theorem Annotator.hovers_perm (a : Annotator) (q : Request) (w : World) (r : Result)
    (h : (a.annotate q w).1 = .ok r)
    (hemit : r.plan.behaviour.showEmit = false) (hkeep : r.plan.behaviour.keepNotations = false)
    (hstatic : r.plan.behaviour.noStaticSemanticInfo = false) (hkept : (a.job q).kept = none)
    (htrees : Tree.Fit w.trees r.plan.parsed)
    (hfeed : w.trees ≠ none → ∀ y ∈ r.plan.identified w.trees, ∀ x ∈ y.2, '\n' ∉ x.text) :
    ∃ plan tags, a.reading q = .ok (plan, tags) ∧
      (plan.identified w.trees).map Prod.fst = plan.sections.filter plan.registers ∧
      (r.notes.filterMap Note.hovering?).Perm
        ((plan.identified w.trees).flatMap fun (s, xs) =>
          xs.filterMap (plan.hovered? (a.job q) (w.serving a.slot a.script plan.options) s)) := by
  obtain ⟨plan, tags, parts, errors, hgathered⟩ := exists_gathered h hemit hkeep hkept
  obtain ⟨start, -, hread⟩ := Outcome.bind_eq_ok.mp hgathered.reading
  have hsections : ∀ s ∈ plan.taken, s.PartOf q.code := by
    intro s hs
    have hmem := (List.mem_filter.mp hs).1
    rw [Plan.sections_eq hread] at hmem
    exact Section.partOf_of_mem_split hmem
  rw [hgathered.final] at hemit hstatic htrees hfeed
  have hparsed : Plan.parsed { plan with removals := Span.mergeDescending plan.removals } =
      plan.taken.filter plan.parses := by
    unfold Plan.parsed
    rw [hemit, if_neg Bool.false_ne_true]
    rfl
  rw [hparsed] at htrees
  have hstands := Plan.standsIn_of_mem_readAll htrees hsections
  -- Without trees the identifiers are tokens, which never reach over a line feed.
  have hlines : ∀ y ∈ plan.identified w.trees, ∀ x ∈ y.2, '\n' ∉ x.text := by
    cases hnone : w.trees with
    | none => exact Plan.no_feed_of_mem_readAll plan.taken
    | some ts =>
      have hsupplied := hfeed (by rw [hnone]; exact Option.some_ne_none ts)
      unfold Plan.identified at hsupplied
      rw [Plan.readAll_removals, hnone] at hsupplied
      exact hsupplied
  refine ⟨plan, tags, hgathered.reading, plan.map_fst_readAll w.trees plan.taken, ?_⟩
  have hresolved := Note.filterMap_resolveAll_perm (g := Note.hovering?) (fun _ _ => rfl) r.code
    ((tags ++ parts.flatten ++ errors).map plan.settled)
  rw [← hgathered.notes, List.filterMap_map] at hresolved
  have htag : tags.filterMap plan.hoverLeft? = [] := by
    apply plan.filterMap_hoverLeft_eq_nil
    intro n hn info hbody
    obtain ⟨_, _, htag⟩ := hgathered.tagged n hn
    rw [htag] at hbody
    cases hbody
  have herror : errors.filterMap plan.hoverLeft? = [] := by
    apply plan.filterMap_hoverLeft_eq_nil
    intro n hn info hbody
    obtain ⟨_, _, _, _, _, herror⟩ := hgathered.reported n hn
    rw [herror] at hbody
    cases hbody
  have hfound := Outcome.filterMap_flatten_of_mapM (g := plan.hoverLeft?)
    (k := fun y => y.2.filterMap
      (plan.hovered? (a.job q) (w.serving a.slot a.script plan.options) y.1)) hgathered.noted
    fun y hy notes hnoted => Answered.filterMap_hoverLeft hnoted hstatic fun x hx hstays known =>
      Plan.hoverLeft?_hoverNote hread (hstands y hy x hx) (hlines y hy x hx) hstays known
  have hall : (tags ++ parts.flatten ++ errors).filterMap plan.hoverLeft? =
      (plan.identified w.trees).flatMap fun y => y.2.filterMap
        (plan.hovered? (a.job q) (w.serving a.slot a.script plan.options) y.1) := by
    rw [List.filterMap_append, List.filterMap_append, htag, herror, hfound, List.nil_append,
      List.append_nil]
  rw [← hall]
  exact hresolved

/-- Of three known identifiers one is cut and one is not wanted. -/
theorem Annotator.hovers_perm_example :
    let a : Annotator :=
      { script := { quickInfo := [("z", .str "let z"), ("x", .str "let x"), ("y", .str "let y")] }
        declarations := [], wanted := some fun target _ _ => target != "y" }
    let q : Request := { code := "let z\n// ---cut---\nlet é = x + y\n".toList }
    let w : World := { trees := some [.node "program" 0 34 [.node "identifier" 4 5 [],
      .node "identifier" 23 25 [], .node "identifier" 28 29 [], .node "identifier" 32 33 []]] }
    ∃ r plan tags, (a.annotate q w).1 = .ok r ∧
      r.plan.behaviour.showEmit = false ∧ r.plan.behaviour.keepNotations = false ∧
      r.plan.behaviour.noStaticSemanticInfo = false ∧ (a.job q).kept = none ∧
      Tree.Fit w.trees r.plan.parsed ∧
      (w.trees ≠ none → ∀ y ∈ r.plan.identified w.trees, ∀ x ∈ y.2, '\n' ∉ x.text) ∧
      a.reading q = .ok (plan, tags) ∧
      r.notes.filterMap Note.hovering? = [(8, 1, ⟨"let x", none, "x"⟩)] ∧
      (r.notes.filterMap Note.hovering?).Perm
        ((plan.identified w.trees).flatMap fun (s, xs) =>
          xs.filterMap (plan.hovered? (a.job q) (w.serving a.slot a.script plan.options) s)) := by
  intro a q w
  have hrun : ((a.annotate q w).1.toOption.map fun r =>
      ([r.plan.behaviour.showEmit, r.plan.behaviour.keepNotations,
        r.plan.behaviour.noStaticSemanticInfo], r.plan.parsed.map Section.content,
        (r.plan.identified w.trees).map fun y => y.2.map (·.text))) =
        some ([false, false, false], [q.code],
          [["z".toList, "é".toList, "x".toList, "y".toList]]) := by
    decide +kernel
  have hfound : ((a.annotate q w).1.toOption.map fun r => r.notes.filterMap Note.hovering?) =
      some [(8, 1, ⟨"let x", none, "x"⟩)] := by
    decide +kernel
  obtain ⟨r, hr, hvalues⟩ := Outcome.exists_ok_of_toOption_map hrun
  simp only [Prod.mk.injEq, List.cons.injEq, and_true] at hvalues
  obtain ⟨⟨hemit, hkeep, hstatic⟩, hparsed, htexts⟩ := hvalues
  rw [hr] at hfound
  have hhovers : r.notes.filterMap Note.hovering? = [(8, 1, ⟨"let x", none, "x"⟩)] :=
    Option.some.inj hfound
  have hfit : Tree.Fit w.trees r.plan.parsed := by
    rintro ts ⟨⟩ x hx
    obtain ⟨s, hs, hcontent⟩ := List.map_eq_singleton_iff.mp hparsed
    rw [hs] at hx
    obtain rfl := List.mem_singleton.mp hx
    dsimp only
    rw [hcontent]
    simp only [Tree.Within, Tree.AllWithin]
    decide
  have hfeed : w.trees ≠ none → ∀ y ∈ r.plan.identified w.trees, ∀ x ∈ y.2, '\n' ∉ x.text := by
    intro _ y hy x hx
    obtain ⟨z, hz, hall⟩ := List.map_eq_singleton_iff.mp htexts
    rw [hz] at hy
    obtain rfl := List.mem_singleton.mp hy
    have hmem : x.text ∈ ["z".toList, "é".toList, "x".toList, "y".toList] :=
      hall ▸ List.mem_map_of_mem hx
    have hplain : ∀ t ∈ ["z".toList, "é".toList, "x".toList, "y".toList], '\n' ∉ t := by decide
    exact hplain x.text hmem
  obtain ⟨plan, tags, hread, -, hperm⟩ :=
    hovers_perm a q w r hr hemit hkeep hstatic rfl hfit hfeed
  exact ⟨r, plan, tags, hr, hemit, hkeep, hstatic, rfl, hfit, hfeed, hread, hhovers, hperm⟩

end Marginalia
