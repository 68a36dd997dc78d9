import Marginalia.Proofs.Answer

/-!
# What a run says

The outcome of a run as a function of its plan, of the checker that serves it and of the trees that
it is given.  The functions below answer from one fixed checker and keep no state.  The run itself
agrees with them, whichever way it came by its checker.
-/

namespace Marginalia
set_option autoImplicit false

def Job.wants (job : Job) (s : Section) (x : Identifier) : Bool :=
  match job.wanted with
  | none => true
  | some wanted => wanted (String.ofList x.text) x.span.start s.filename

def Job.keeps (job : Job) : Note → Bool := job.kept.getD fun _ => true

def Section.read (trees : Option (List Tree)) (s : Section) :
    Except Failure (List Identifier) × Option (List Tree) :=
  let (found, w) := ({ trees } : World).identifiers s.content s.extension
  (found.map (List.map (Identifier.shift s.offset)), w.trees)

def Plan.readSection (p : Plan) (trees : Option (List Tree)) (s : Section) :
    Except Failure (List Identifier) × Option (List Tree) :=
  if p.asksFor s then s.read trees else (.ok [], trees)

theorem World.identifiers_eq (w : World) (content : List Char) (extension : String) :
    w.identifiers content extension =
      ((({ trees := w.trees } : World).identifiers content extension).1,
        { w with trees := (({ trees := w.trees } : World).identifiers content extension).2.trees }) := by
  unfold identifiers
  cases Language.grammar? extension with
  | none => rfl
  | some grammar =>
    cases htrees : w.trees with
    | none =>
      dsimp only
      rw [← htrees]
    | some ts =>
      cases ts with
      | nil =>
        dsimp only
        rw [← htrees]
      | cons t ts => rfl

namespace Answered

variable (job : Job) (plan : Plan) (c : Checker) (s : Section)

def hoverNote (x : Identifier) (q : QuickInfo) : Note :=
  { start := x.span.start, length := x.text.length, body := .hover (Work.infoOf x.text q) }

def queryNote (i : Int) (x : Identifier) (q : QuickInfo) : Note :=
  { start := i, length := x.text.length, body := .query (Work.infoOf x.text q) }

def highlightNote (label : Option String) (x : Identifier) (q : QuickInfo) : Note :=
  { start := x.span.start, length := x.text.length, body := .highlight (Work.infoOf x.text q) label }

def unresolved (kind : MarkerKind) (target : Int) : Failure :=
  .unresolvedMarker kind (Work.markerLine job target) s.filename

def hover (x : Identifier) : Except Failure (Option Note) :=
  if plan.removes x.span.start then .ok none
  else if !job.wants s x then .ok none
  else (c.infoAt s.path (x.span.start - s.offset)).map (Option.map (hoverNote x))

def query (xs : List Identifier) (i : Int) : Except Failure Note :=
  match xs.find? (·.span.touches i) with
  | none => .error (unresolved job s .query i)
  | some x => do
    match ← c.infoAt s.path (i - s.offset) with
    | none => .error (unresolved job s .query i)
    | some q => .ok (queryNote i x q)

def highlighted (h : Highlight) (x : Identifier) : Except Failure (Option Note) :=
  if !x.span.meets h.span then .ok none
  else (c.infoAt s.path (x.span.start - s.offset)).map (Option.map (highlightNote h.label x))

def highlight (xs : List Identifier) (h : Highlight) : Except Failure (List Note) := do
  let notes ← xs.filterMapM (highlighted c s h)
  if notes.isEmpty then .error (unresolved job s .highlight h.span.start) else .ok notes

def completionNote (i : Int) (offered : Option (List Completion)) : Note :=
  let typed := Work.typedBefore (Text.upTo job.code i)
  { start := i, length := 0
    body := .completion ((offered.getD []).filter fun e => typed.isPrefixOf e.name.toList)
      (String.ofList typed) }

def completion (i : Int) : Except Failure (Option Note) :=
  if plan.removes i then .ok none
  else if (c.completions? s.path).isNone && !plan.behaviour.noErrorValidation then
    .error (unresolved job s .completion i)
  else .ok (some (completionNote job i (c.completions? s.path)))

def joined (first second : Except Failure (List Note)) : Except Failure (List Note) := do
  return (← first) ++ (← second)

theorem joined_nil_left (second : Except Failure (List Note)) : joined (.ok []) second = second := by
  cases second <;> rfl

def hovers (xs : List Identifier) : Except Failure (List Note) :=
  if plan.behaviour.noStaticSemanticInfo then .ok [] else xs.filterMapM (hover job plan c s)

def queries (xs : List Identifier) : Except Failure (List Note) :=
  (plan.asked.queries.filter s.contains).mapM (query job c s xs)

def highlights (xs : List Identifier) : Except Failure (List Note) :=
  ((plan.asked.highlights.filter fun h => s.contains h.span.start).mapM
    (highlight job c s xs)).map List.flatten

def completions : Except Failure (List Note) :=
  (plan.asked.completions.filter s.contains).filterMapM (completion job plan c s)

def notes (xs : List Identifier) : Except Failure (List Note) :=
  joined (hovers job plan c s xs) (joined (queries job plan c s xs)
    (joined (highlights job plan c s xs) (completions job plan c s)))

def collected (trees : Option (List Tree)) : Except Failure (List Note) :=
  if plan.behaviour.showEmit then .ok []
  else (plan.readSection trees s).1 >>= notes job plan c s

def treesAfter (trees : Option (List Tree)) : Option (List Tree) :=
  if plan.behaviour.showEmit then trees else (plan.readSection trees s).2

/-- The notes of sections that are registered one after the other.  No checker is needed when there
are none. -/
def populated : Except Failure Checker → Option (List Tree) → List Section →
    Except Failure (List Note)
  | _, _, [] => .ok []
  | p, trees, s :: rest => do
    let c := (← p).create s.path s.content
    joined (collected job plan c s trees) (populated (.ok c) (treesAfter plan s trees) rest)

def errors (p : Except Failure Checker) : Except Failure (List Note) :=
  if plan.behaviour.noErrors = .all then .ok []
  else do
    let found ← (plan.sections.filter fun s => Language.isSource s.extension).mapM fun s => do
      return (← p >>= fun c => c.diagnostics s.path).filterMap (Work.errorNote? plan s)
    return found.flatten

def expected (errors : List Note) : Except Failure Unit :=
  if !plan.behaviour.noErrorValidation && plan.behaviour.noErrors != .all then
    Expectation.check plan.behaviour.errors job.root (errors.filterMap Work.reported?)
  else .ok ()

def diagnosed (p : Except Failure Checker) : Except Failure (List Note) :=
  errors plan p >>= fun found =>
    (expected job plan (found.filter job.keeps)).map fun _ => found.filter job.keeps

def shown (p : Except Failure Checker) : Except Failure (List Char × Plan) :=
  let name := Work.shownName plan
  match Work.sourceFor? plan name with
  | none => .error (.missingSource name (plan.sections.map Section.filename))
  | some source => do
    let outputs ← p >>= fun c => c.emit (job.root ++ source)
    match outputs.find? fun o => o.name == job.root ++ name || o.name == name with
    | none => .error (.missingOutput name (job.root ++ name) (outputs.map Checker.Output.name))
    | some output => .ok (output.text,
        { plan with extension := Language.extensionOf output.name, removals := [] })

def finished (text : List Char) (notes : List Note) : Result :=
  if plan.behaviour.keepNotations then ⟨text, Note.resolveAll text notes, plan⟩
  else
    let final := Span.eraseText text plan.removals
    ⟨final, Note.resolveAll final (notes.map fun n => (Work.anchor plan n).erase plan.removals),
      { plan with removals := Span.mergeDescending plan.removals }⟩

def ending (p : Except Failure Checker) (notes : List Note) : Except Failure Result :=
  if plan.behaviour.showEmit then
    (shown job plan (p.map (·.holding (Work.refreshed job plan (plan.taken.map Section.path))))).map
      fun x => finished x.2 x.1 []
  else .ok (finished plan job.code notes)

/-- The outcome of a run whose sample has been read. -/
def outcome (tags : List Note) (p : Except Failure Checker) (trees : Option (List Tree)) :
    Except Failure Result :=
  populated job plan p trees plan.taken >>= fun found =>
    diagnosed job plan (p.map (·.holding plan.taken)) >>= fun errors =>
      ending job plan (p.map (·.holding plan.taken)) ((tags ++ found).filter job.keeps ++ errors)

end Answered

namespace Work

section Collect
variable {job : Job} {plan : Plan} {I : Draft → Prop} {v : View} {c : Checker} {s : Section}
  (hI : Steady job plan I) (hc : v.checker = .ok c)

theorem answers_option {α β : Type} {P Q E : Draft → Prop} {m : Work (Option α)}
    {r : Except Failure (Option α)} {f : Option α → Work (Option β)} {g : α → β}
    (h : Answers P m r Q E) (hf : ∀ o, f o = pure (o.map g)) :
    Answers P (m >>= f) (r.map (Option.map g)) Q E := by
  have hbind : Answers P (m >>= f) (r >>= fun o => .ok (o.map g)) Q E := by
    refine h.bind fun o => ?_
    rw [hf o]
    exact Answers.of_pure fun d hd => hd
  cases r with
  | error e => exact hbind
  | ok o => exact hbind

include hI

theorem answers_isWanted (x : Identifier) :
    Answers (Stands job plan I v) (isWanted job s x) (.ok (job.wants s x)) (Stands job plan I v) I := by
  unfold isWanted Job.wants
  cases job.wanted with
  | none => exact Answers.of_pure fun d hd => hd
  | some wanted =>
    refine Answers.bind_ok (Answers.of_modify fun d hd => ⟨?_, rfl⟩) (Answers.of_pure fun d hd => hd)
    exact hd.congr hI rfl rfl rfl rfl rfl

include hc

theorem answers_quickInfo (i : Int) :
    Answers (Stands job plan I v) (quickInfo job plan s i) (c.infoAt s.path (i - s.offset))
      (Stands job plan I v) I := by
  have hask := answers_ask (v := v) hI (.info s.path (i - s.offset)) trivial fun _ => rfl
  rw [hc] at hask
  exact hask

theorem answers_hover (x : Identifier) :
    Answers (Stands job plan I v) (hover? job plan s x) (Answered.hover job plan c s x)
      (Stands job plan I v) I := by
  unfold hover? Answered.hover
  split
  · exact Answers.of_pure fun d hd => hd
  refine Answers.bind_ok (answers_isWanted hI x) ?_
  split
  · exact Answers.of_pure fun d hd => hd
  · refine answers_option (answers_quickInfo hI hc x.span.start) fun o => ?_
    cases o <;> rfl

theorem answers_query (xs : List Identifier) (i : Int) :
    Answers (Stands job plan I v) (query job plan s xs i) (Answered.query job c s xs i)
      (Stands job plan I v) I := by
  unfold query Answered.query
  cases xs.find? (·.span.touches i) with
  | none => exact Answers.of_throw fun d hd => hd.keeps
  | some x =>
    refine (answers_quickInfo hI hc i).bind fun o => ?_
    cases o with
    | none => exact Answers.of_throw fun d hd => hd.keeps
    | some q => exact Answers.of_pure fun d hd => hd

theorem answers_highlighted (h : Highlight) (x : Identifier) :
    Answers (Stands job plan I v) (highlighted? job plan s h x) (Answered.highlighted c s h x)
      (Stands job plan I v) I := by
  unfold highlighted? Answered.highlighted
  split
  · exact Answers.of_pure fun d hd => hd
  · refine answers_option (answers_quickInfo hI hc x.span.start) fun o => ?_
    cases o <;> rfl

theorem answers_highlight (xs : List Identifier) (h : Highlight) :
    Answers (Stands job plan I v) (highlight job plan s xs h) (Answered.highlight job c s xs h)
      (Stands job plan I v) I := by
  unfold highlight Answered.highlight
  refine (Answers.filterMapM fun x _ => answers_highlighted hI hc h x).bind fun notes => ?_
  split
  · intro d hd
    exact ⟨d, rfl, hd.keeps⟩
  · exact Answers.of_pure fun d hd => hd

theorem answers_completion (i : Int) :
    Answers (Stands job plan I v) (completion? job plan s i) (Answered.completion job plan c s i)
      (Stands job plan I v) I := by
  unfold completion? Answered.completion
  split
  · exact Answers.of_pure fun d hd => hd
  have hask := answers_ask (v := v) hI (.completions s.path (i - s.offset)) trivial fun _ => rfl
  rw [hc] at hask
  refine Answers.bind_ok hask ?_
  dsimp only
  split
  · intro d hd
    exact ⟨d, rfl, hd.keeps⟩
  · exact Answers.of_pure fun d hd => hd

theorem adds_collectFrom (xs : List Identifier) :
    Adds (Stands job plan I v) (collectFrom job plan s xs) (Answered.notes job plan c s xs)
      (Stands job plan I v) I := by
  have hinsert : ∀ d notes, Stands job plan I v d → Stands job plan I v { d with notes } :=
    fun d notes hd => hd.congr hI rfl rfl rfl rfl rfl
  have hrest : Adds (Stands job plan I v) (do
      addNotes (← (plan.asked.queries.filter s.contains).mapM (query job plan s xs))
      (plan.asked.highlights.filter fun h => s.contains h.span.start).forM fun h => do
        addNotes (← highlight job plan s xs h)
      addNotes (← (plan.asked.completions.filter s.contains).filterMapM (completion? job plan s)))
      (Answered.joined (Answered.queries job plan c s xs)
        (Answered.joined (Answered.highlights job plan c s xs) (Answered.completions job plan c s)))
      (Stands job plan I v) I := by
    refine Adds.adding (Answers.mapM fun i _ => answers_query hI hc xs i) hinsert fun _ => ?_
    refine Adds.seq (Adds.forM fun h _ => ?_) fun _ => ?_
    · exact Adds.of_answers (answers_highlight hI hc xs h) hinsert
    · exact Adds.of_answers (Answers.filterMapM fun i _ => answers_completion hI hc i) hinsert
  unfold collectFrom Answered.notes Answered.hovers
  cases plan.behaviour.noStaticSemanticInfo with
  | true =>
    rw [if_pos rfl, Answered.joined_nil_left]
    exact hrest
  | false =>
    exact Adds.adding (Answers.filterMapM fun x _ => answers_hover hI hc x) hinsert fun _ => hrest

omit hI hc in
theorem exec_identifiers (s : Section) (d : Draft) :
    exec (identifiers s) d = ((s.read d.world.trees).1,
      { d with world := { d.world with trees := (s.read d.world.trees).2 } }) := by
  have hworld := World.identifiers_eq d.world s.content s.extension
  unfold identifiers Section.read
  have hget : exec (get : Work Draft) d = (.ok d, d) := rfl
  rw [exec_bind, hget]
  dsimp only
  rw [hworld]
  cases (({ trees := d.world.trees } : World).identifiers s.content s.extension).1 <;> rfl

omit hc in
theorem answers_readSection (s : Section) :
    Answers (Stands job plan I v) (if plan.asksFor s then identifiers s else pure [])
      (plan.readSection v.trees s).1
      (Stands job plan I { v with trees := (plan.readSection v.trees s).2 }) I := by
  unfold Plan.readSection
  split
  · intro d hd
    have hrun := exec_identifiers s d
    rw [hd.shows.trees] at hrun
    refine ⟨_, hrun, ?_⟩
    have hkeeps : I { d with world := { d.world with trees := (s.read v.trees).2 } } :=
      hI.frame (d := d) rfl rfl rfl hd.keeps
    cases (s.read v.trees).1 with
    | error e => exact hkeeps
    | ok xs =>
      refine ⟨⟨⟨hd.shows.serves.congr rfl rfl rfl, rfl, hd.shows.registered⟩, hkeeps⟩, rfl⟩
  · exact Answers.of_pure fun d hd => hd

theorem adds_collected (s : Section) :
    Adds (Stands job plan I v) (if !plan.behaviour.showEmit then collect job plan s else pure ())
      (Answered.collected job plan c s v.trees)
      (Stands job plan I { v with trees := Answered.treesAfter plan s v.trees }) I := by
  unfold Answered.collected Answered.treesAfter
  cases plan.behaviour.showEmit with
  | true => exact Adds.nothing fun d hd => hd
  | false =>
    rw [collect_eq]
    refine Adds.after (answers_readSection hI s) fun xs => ?_
    exact adds_collectFrom (v := { v with trees := (plan.readSection v.trees s).2 }) hI hc xs

omit hc in
theorem answers_register {s : Section} (hs : s ∈ plan.taken) :
    Answers (Stands job plan I v) (register job plan s) (v.checker.map fun _ => ())
      (Stands job plan I { v with
        checker := v.checker.map (·.create s.path s.content)
        registered := v.registered ++ [s.path] }) I := by
  have hcreate := answers_perform (v := v) hI (.create s.path s.content) ⟨s, hs, rfl, rfl⟩
  unfold register
  have hbind : (v.checker.map fun _ => ()) =
      ((v.checker >>= fun c => (c.perform (.create s.path s.content)).1) >>= fun _ => .ok ()) := by
    cases v.checker <;> rfl
  rw [hbind]
  refine hcreate.bind fun _ => ?_
  intro d hd
  refine ⟨_, rfl, ⟨⟨hd.shows.serves.congr rfl rfl rfl, hd.shows.trees, ?_⟩, ?_⟩, rfl⟩
  · exact congrArg (· ++ [s.path]) hd.shows.registered
  · exact hI.frame (d := d) rfl rfl rfl hd.keeps

omit hc in
theorem adds_populated {sections : List Section} (hsections : ∀ s ∈ sections, s ∈ plan.taken) :
    Adds (Stands job plan I v)
      (sections.forM fun s => do
        register job plan s
        if !plan.behaviour.showEmit then collect job plan s)
      (Answered.populated job plan v.checker v.trees sections)
      (fun d => ∃ trees, Stands job plan I ⟨v.checker.map (·.holding sections), trees,
        v.registered ++ sections.map Section.path⟩ d) I := by
  induction sections generalizing v with
  | nil =>
    refine Adds.nothing fun d hd => ⟨v.trees, ?_⟩
    have hsame : v.checker.map (·.holding []) = v.checker := by cases v.checker <;> rfl
    rw [hsame, List.map_nil, List.append_nil]
    exact hd
  | cons s rest ih =>
    have hregister := answers_register (v := v) hI (hsections s List.mem_cons_self)
    have hrest := fun t ht => hsections t (List.mem_cons_of_mem s ht)
    cases hv : v.checker with
    | error e =>
      rw [hv] at hregister
      intro d hd
      obtain ⟨d', hrun, hkeeps⟩ := hregister d hd
      refine ⟨d', ?_, hkeeps⟩
      unfold List.forM
      rw [exec_bind, exec_bind, hrun]
      rfl
    | ok c =>
      rw [hv] at hregister
      -- The rest of the sections meet the checker with this one's text in it.
      let c' := c.create s.path s.content
      let v' : View := ⟨.ok c', v.trees, v.registered ++ [s.path]⟩
      have hhere := Adds.after hregister fun _ => adds_collected (v := v') (c := c') hI rfl s
      have hlater := ih (v := { v' with trees := Answered.treesAfter plan s v.trees }) hrest
      refine (Adds.seq hhere fun _ => hlater).mono ?_
      rintro d ⟨trees, hd⟩
      refine ⟨trees, ?_⟩
      have hpaths : v'.registered ++ rest.map Section.path =
          v.registered ++ (s :: rest).map Section.path := by
        rw [List.map_cons, List.append_assoc, List.singleton_append]
      rw [← hpaths]
      exact hd

end Collect

section Stages
variable {job : Job} {plan : Plan} {I : Draft → Prop} {v : View} (hI : Steady job plan I)
include hI

theorem answers_errorNotes :
    Answers (Stands job plan I v) (errorNotes job plan) (Answered.errors plan v.checker)
      (Stands job plan I v) I := by
  unfold errorNotes Answered.errors
  split
  · exact Answers.of_pure fun d hd => hd
  refine (Answers.mapM fun s _ => ?_).bind fun found => Answers.of_pure fun d hd => hd
  refine (answers_ask hI (.diagnostics s.path) trivial fun _ => rfl).bind fun found => ?_
  exact Answers.of_pure fun d hd => hd

theorem answers_expected (errors : List Note) :
    Answers (Stands job plan I v)
      (if !plan.behaviour.noErrorValidation && plan.behaviour.noErrors != .all then
        expect plan.behaviour.errors job.root errors
      else pure ())
      (Answered.expected job plan errors) (Stands job plan I v) I := by
  unfold Answered.expected
  split
  · have hcheck : Answers (Stands job plan I v) (ofExcept (Expectation.check plan.behaviour.errors
        job.root (errors.filterMap reported?))) (Expectation.check plan.behaviour.errors
        job.root (errors.filterMap reported?)) (Stands job plan I v) I :=
      Answers.of_ofExcept (fun d hd => hd) fun d hd => hd.keeps
    unfold expect
    dsimp only
    split
    · refine Answers.bind_ok (Answers.of_modify fun d hd => ⟨?_, rfl⟩) hcheck
      exact hd.congr hI rfl rfl rfl rfl rfl
    · exact hcheck
  · exact Answers.of_pure fun d hd => hd

theorem exec_diagnose {d : Draft} (hd : Stands job plan I v d) :
    ∃ d', exec (diagnose job plan) d =
        ((Answered.diagnosed job plan v.checker).map fun _ => (), d') ∧
      match Answered.diagnosed job plan v.checker with
      | .ok errors => Stands job plan I v d' ∧ d'.notes = d.notes.filter job.keeps ++ errors
      | .error _ => I d' := by
  obtain ⟨d₁, hfound, hafter⟩ := answers_errorNotes hI d hd
  unfold diagnose Answered.diagnosed
  rw [exec_bind, hfound]
  cases herrors : Answered.errors plan v.checker with
  | error e =>
    rw [herrors] at hafter
    exact ⟨d₁, rfl, hafter⟩
  | ok found =>
    rw [herrors] at hafter
    let d₂ : Draft := { d₁ with notes := d₁.notes.filter job.keeps ++ found.filter job.keeps }
    obtain ⟨d₃, hexpected, hlast⟩ := answers_expected hI (found.filter job.keeps) d₂
      (hafter.1.congr hI rfl rfl rfl rfl rfl)
    rw [Outcome.ok_bind]
    dsimp only
    rw [exec_bind]
    cases hresult : Answered.expected job plan (found.filter job.keeps) with
    | error e =>
      rw [hresult] at hexpected hlast
      exact ⟨d₃, hexpected, hlast⟩
    | ok _ =>
      rw [hresult] at hexpected hlast
      refine ⟨d₃, hexpected, hlast.1, hlast.2.trans ?_⟩
      exact congrArg (·.filter job.keeps ++ found.filter job.keeps) hafter.2

theorem answers_update (hheld : v.Held) (s : Section) :
    Answers (Stands job plan I v)
      (do if (← get).registered.contains s.path then perform job plan (.update s.path s.content))
      (.ok ()) (Stands job plan I (v.holding ([s].filter fun s => v.registered.contains s.path))) I := by
  have hget : Answers (Stands job plan I v)
      (if v.registered.contains s.path then perform job plan (.update s.path s.content) else pure ())
      (.ok ()) (Stands job plan I (v.holding ([s].filter fun s => v.registered.contains s.path))) I := by
    by_cases hs : v.registered.contains s.path = true
    · obtain ⟨c, text, hc, hfile⟩ := hheld s.path (List.contains_iff_mem.mp hs)
      have hcall : c.perform (.update s.path s.content) = (.ok (), c.create s.path s.content) := by
        simp only [Checker.perform, Checker.update, hfile]
      have hperform := answers_perform (v := v) hI (.update s.path s.content) trivial
      unfold View.after at hperform
      have hkept : [s].filter (fun s => v.registered.contains s.path) = [s] :=
        List.filter_cons_of_pos hs
      rw [if_pos hs, hkept]
      unfold View.holding
      rw [hc] at hperform ⊢
      have hbind : (Except.ok c >>= fun c : Checker =>
          (c.perform (.update s.path s.content)).1) = .ok () := congrArg Prod.fst hcall
      have hafter : (Except.ok c).map (fun c : Checker => (c.perform (.update s.path s.content)).2) =
          (.ok (c.create s.path s.content) : Except Failure Checker) :=
        congrArg (Except.ok ∘ Prod.snd) hcall
      rw [hbind, hafter] at hperform
      exact hperform
    · have hdropped : [s].filter (fun s => v.registered.contains s.path) = [] :=
        List.filter_cons_of_neg hs
      rw [if_neg hs, hdropped, View.holding_nil]
      exact Answers.of_pure fun d hd => hd
  intro d hd
  have hrun := hget d hd
  rw [← hd.shows.registered] at hrun ⊢
  exact hrun

theorem answers_updates (hheld : v.Held) (sections : List Section) :
    Answers (Stands job plan I v)
      (sections.forM fun s => do
        if (← get).registered.contains s.path then perform job plan (.update s.path s.content))
      (.ok ())
      (Stands job plan I (v.holding (sections.filter fun s => v.registered.contains s.path))) I := by
  induction sections generalizing v with
  | nil =>
    refine Answers.of_pure fun d hd => ?_
    rw [List.filter_nil, View.holding_nil]
    exact hd
  | cons s rest ih =>
    have hsplit : (s :: rest).filter (fun s => v.registered.contains s.path) =
        [s].filter (fun s => v.registered.contains s.path) ++
          rest.filter fun s => v.registered.contains s.path :=
      List.filter_append [s] rest
    rw [hsplit, View.holding_append]
    exact Answers.bind_ok (answers_update hI hheld s) (ih (hheld.holding _))

theorem answers_updateFiles (hheld : v.Held) :
    Answers (Stands job plan I v) (updateFiles job plan) (.ok ())
      (Stands job plan I (v.holding (refreshed job plan v.registered))) I :=
  answers_updates hI hheld _

theorem answers_emit (path : String) :
    Answers (Stands job plan I v) (perform job plan (.emit path))
      (v.checker >>= fun c => c.emit path) (Stands job plan I v) I :=
  answers_ask hI (.emit path) trivial fun _ => rfl

theorem exec_showOutput (hheld : v.Held) {d : Draft} (hd : Stands job plan I v d) :
    ∃ d', exec (showOutput job plan) d =
        (Answered.shown job plan (v.holding (refreshed job plan v.registered)).checker, d') ∧ I d' ∧
      (∀ x, Answered.shown job plan (v.holding (refreshed job plan v.registered)).checker = .ok x →
        d'.notes = []) := by
  obtain ⟨d₁, hupdate, hup, -⟩ := answers_updateFiles hI hheld d hd
  unfold showOutput Answered.shown
  rw [exec_bind, hupdate]
  dsimp only
  cases sourceFor? plan (shownName plan) with
  | none => exact ⟨d₁, rfl, hup.keeps, fun x hx => by cases hx⟩
  | some source =>
    dsimp only
    obtain ⟨d₂, hemit, hafter⟩ := answers_emit hI (job.root ++ source) d₁ hup
    rw [exec_bind, hemit]
    cases houtputs : ((v.holding (refreshed job plan v.registered)).checker >>= fun c =>
        c.emit (job.root ++ source)) with
    | error e =>
      rw [houtputs] at hafter
      exact ⟨d₂, rfl, hafter, fun x hx => by cases hx⟩
    | ok outputs =>
      rw [houtputs] at hafter
      have hkeeps := hafter.1.keeps
      rw [Outcome.ok_bind]
      dsimp only
      cases outputs.find? fun o => o.name == job.root ++ shownName plan || o.name == shownName plan with
      | none => exact ⟨d₂, rfl, hkeeps, fun x hx => by cases hx⟩
      | some output =>
        refine ⟨_, rfl, ?_, fun _ _ => rfl⟩
        exact hI.frame (d := d₂) rfl rfl rfl hkeeps

omit hI in
theorem exec_finish (plan : Plan) (text : List Char) (d : Draft) :
    ∃ d', exec (finish plan text) d = (.ok (Answered.finished plan text d.notes), d') ∧
      d'.checker = d.checker ∧ d'.world.checkers = d.world.checkers ∧
      d'.world.caches = d.world.caches := by
  unfold finish Answered.finished
  cases plan.behaviour.keepNotations with
  | true => exact ⟨d, rfl, rfl, rfl, rfl⟩
  | false => exact ⟨_, rfl, rfl, rfl, rfl⟩

omit hI in
theorem held_of_populated {p : Except Failure Checker} {trees trees' : Option (List Tree)}
    {sections : List Section} {found : List Note}
    (h : Answered.populated job plan p trees sections = .ok found) :
    (⟨p.map (·.holding sections), trees', sections.map Section.path⟩ : View).Held := by
  intro path hpath
  obtain ⟨s, hs, hspath⟩ := List.mem_map.mp hpath
  cases p with
  | error e =>
    cases sections with
    | nil => cases hs
    | cons s rest => cases h
  | ok c =>
    obtain ⟨t, ht⟩ := Section.exists_last? hs hspath
    refine ⟨c.holding sections, t.content, rfl, ?_⟩
    rw [Checker.file?_holding, ht]
    rfl

theorem exec_ending {p : Except Failure Checker} {trees : Option (List Tree)} {d : Draft}
    (hheld : (⟨p, trees, plan.taken.map Section.path⟩ : View).Held)
    (hd : Stands job plan I ⟨p, trees, plan.taken.map Section.path⟩ d) :
    ∃ d', exec (emit job plan >>= fun x => finish x.2 x.1) d =
      (Answered.ending job plan p d.notes, d') ∧ I d' := by
  unfold Answered.ending
  cases hemit : plan.behaviour.showEmit with
  | false =>
    obtain ⟨d', hfinish, hnumber, hcheckers, hcaches⟩ := exec_finish plan job.code d
    rw [exec_bind, emit_of_not_showEmit hemit]
    exact ⟨d', hfinish, hI.frame hnumber hcheckers hcaches hd.keeps⟩
  | true =>
    obtain ⟨d₁, hshown, hkeeps, hdropped⟩ := exec_showOutput hI hheld hd
    have hemits : emit job plan = showOutput job plan := by
      unfold emit
      rw [hemit, if_pos rfl]
    rw [exec_bind, hemits, hshown, if_pos rfl]
    unfold View.holding at hdropped ⊢
    dsimp only at hdropped ⊢
    cases hresult : Answered.shown job plan
        (p.map (·.holding (refreshed job plan (plan.taken.map Section.path)))) with
    | error e => exact ⟨d₁, rfl, hkeeps⟩
    | ok x =>
      obtain ⟨d', hfinish, hnumber, hcheckers, hcaches⟩ := exec_finish x.2 x.1 d₁
      rw [hdropped x hresult] at hfinish
      exact ⟨d', hfinish, hI.frame hnumber hcheckers hcaches hkeeps⟩

/-- A run says what its plan, its checker and its trees say.  Whatever it keeps, it keeps also when
it fails. -/
theorem exec_run {start : Plan} {tags : List Note} {p : Except Failure Checker}
    {trees : Option (List Tree)} {d : Draft}
    (hread : start.read job.vocabulary job.root job.code = .ok (plan, tags))
    (hd : Stands job plan I ⟨p, trees, []⟩ d) (hnotes : d.notes = []) :
    ∃ d', exec (run job start) d = (Answered.outcome job plan tags p trees, d') ∧ I d' := by
  have hstart : Stands job plan I ⟨p, trees, []⟩ { d with notes := d.notes ++ tags } :=
    hd.congr hI rfl rfl rfl rfl rfl
  obtain ⟨d₁, hpopulate, hpopulated⟩ := adds_populated hI (fun s hs => hs) _ hstart
  have hrun : exec (populate job plan) { d with notes := d.notes ++ tags } =
      ((Answered.populated job plan p trees plan.taken).map fun _ => (), d₁) := hpopulate
  unfold run Answered.outcome
  rw [exec_bind, exec_ofExcept, hread]
  dsimp only
  rw [exec_bind, exec_addNotes]
  dsimp only
  rw [exec_bind, hrun]
  cases hfound : Answered.populated job plan p trees plan.taken with
  | error e =>
    rw [hfound] at hpopulated
    exact ⟨d₁, rfl, hpopulated⟩
  | ok found =>
    rw [hfound] at hpopulated
    obtain ⟨⟨trees', hd₁⟩, hcollected⟩ := hpopulated
    obtain ⟨d₂, hdiagnose, hdiagnosed⟩ := exec_diagnose hI hd₁
    have hunit : (Except.ok found : Except Failure (List Note)).map (fun _ => ()) = .ok () := rfl
    rw [Outcome.ok_bind, hunit]
    dsimp only
    rw [exec_bind, hdiagnose]
    dsimp only
    cases herrors : Answered.diagnosed job plan (p.map (·.holding plan.taken)) with
    | error e =>
      rw [herrors] at hdiagnosed
      exact ⟨d₂, rfl, hdiagnosed⟩
    | ok errors =>
      rw [herrors] at hdiagnosed
      obtain ⟨hd₂, hlast⟩ := hdiagnosed
      have hall : d₂.notes = (tags ++ found).filter job.keeps ++ errors := by
        rw [hlast, hcollected, hnotes]
        rfl
      obtain ⟨d₃, hending, hkeeps⟩ := exec_ending hI (held_of_populated hfound) hd₂
      rw [hall] at hending
      exact ⟨d₃, hending, hkeeps⟩

end Stages

end Work

end Marginalia
