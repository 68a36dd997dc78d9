import Marginalia.Proofs.Hover

/-!
# Notes of one kind

A section's notes are its hovers, its queries, its highlights and its completions, in this order.  The
notes of one of these kinds in a result are those that the sections have of the kind, as far as the
caller keeps them and erasure leaves them.
-/

namespace Marginalia
set_option autoImplicit false

namespace Outcome
variable {ε α β : Type}

theorem eq_map_of_mapM {f : α → Except ε β} {g : α → β} {xs : List α} {ys : List β}
    (h : xs.mapM f = .ok ys) (hg : ∀ x ∈ xs, ∀ y, f x = .ok y → y = g x) : ys = xs.map g := by
  induction xs generalizing ys with
  | nil =>
    rw [List.mapM_nil] at h
    exact (Except.ok.inj h).symm
  | cons x xs ih =>
    obtain ⟨b, bs, hb, hbs, rfl⟩ := mapM_cons_eq_ok.mp h
    rw [List.map_cons, hg x List.mem_cons_self b hb,
      ih hbs fun y hy => hg y (List.mem_cons_of_mem x hy)]

theorem eq_filterMap_of_filterMapM {f : α → Except ε (Option β)} {g : α → Option β} {xs : List α}
    {ys : List β} (h : xs.filterMapM f = .ok ys) (hg : ∀ x ∈ xs, ∀ o, f x = .ok o → o = g x) :
    ys = xs.filterMap g := by
  induction xs generalizing ys with
  | nil =>
    cases h
    rfl
  | cons x xs ih =>
    have hrest : ∀ y ∈ xs, ∀ o, f y = .ok o → o = g y :=
      fun y hy => hg y (List.mem_cons_of_mem x hy)
    rw [List.filterMapM_cons] at h
    obtain ⟨o, ho, h⟩ := bind_eq_ok.mp h
    have hx := hg x List.mem_cons_self o ho
    cases o with
    | none =>
      rw [List.filterMap_cons_none hx.symm]
      exact ih h hrest
    | some b =>
      obtain ⟨bs, hbs, h⟩ := bind_eq_ok.mp h
      obtain rfl : b :: bs = ys := Except.ok.inj h
      rw [List.filterMap_cons_some hx.symm, ih hbs hrest]

end Outcome

namespace Note

def isOf (kind : String) (n : Note) : Bool := n.kindName == kind

theorem filter_isOf (other kind : String) {notes : List Note} (h : ∀ n ∈ notes, n.kindName = other) :
    notes.filter (isOf kind) = if other = kind then notes else [] := by
  split
  · next heq =>
    refine List.filter_eq_self.mpr fun n hn => ?_
    rw [isOf, h n hn, heq, beq_self_eq_true]
  · next hne =>
    refine List.filter_eq_nil_iff.mpr fun n hn => ?_
    rw [isOf, h n hn, beq_iff_eq]
    exact hne

theorem resolveAll_perm (code : List Char) (notes : List Note) :
    (resolveAll code notes).Perm ((notes.filter fun n => 0 ≤ n.start).map (resolve code)) :=
  (Sorting.sort_perm precedes _).map _

end Note

/-- A note as the result has it, if erasure leaves it. -/
def Plan.left? (plan : Plan) (text : List Char) (n : Note) : Option Note :=
  if 0 ≤ (plan.moved n).start then some ((plan.moved n).resolve text) else none

theorem Plan.filter_resolveAll_perm (plan : Plan) (kind : String) (text : List Char)
    (notes : List Note) :
    ((Note.resolveAll text (notes.map plan.moved)).filter (Note.isOf kind)).Perm
      ((notes.filter (Note.isOf kind)).filterMap (plan.left? text)) := by
  refine ((Note.resolveAll_perm text _).filter _).trans (List.Perm.of_eq ?_)
  induction notes with
  | nil => rfl
  | cons n rest ih =>
    have hkind : Note.isOf kind ((plan.moved n).resolve text) = Note.isOf kind n :=
      congrArg (·.kindName == kind) (plan.body_moved n)
    by_cases hleft : 0 ≤ (plan.moved n).start
    · cases hn : Note.isOf kind n with
      | true => simp [hleft, hkind, hn, left?, ih]
      | false => simp [hleft, hkind, hn, ih]
    · cases hn : Note.isOf kind n with
      | true => simp [hleft, hn, left?, ih]
      | false => simp [hleft, hn, ih]

namespace Answered
variable {job : Job} {plan : Plan} {c : Checker} {s : Section} {xs : List Identifier}
  {found : List Note}

theorem filter_notes (h : notes job plan c s xs = .ok found) :
    highlights job plan c s xs = .ok (found.filter (Note.isOf "highlight")) ∧
      completions job plan c s = .ok (found.filter (Note.isOf "completion")) := by
  obtain ⟨hs, qs, ms, cs, hhovers, hqueries, hhighlights, hcompletions, rfl⟩ := notes_ok h
  have hhover : ∀ n ∈ hs, n.kindName = "hover" := by
    intro n hn
    obtain ⟨x, known, -, rfl⟩ := exists_of_mem_hovers hhovers hn
    rfl
  have hquery : ∀ n ∈ qs, n.kindName = "query" := by
    intro n hn
    obtain ⟨i, x, known, -, -, -, rfl⟩ := exists_of_mem_queries hqueries hn
    rfl
  have hhighlight : ∀ n ∈ ms, n.kindName = "highlight" := by
    intro n hn
    obtain ⟨label, x, known, -, rfl⟩ := exists_of_mem_highlights hhighlights hn
    rfl
  have hcompletion : ∀ n ∈ cs, n.kindName = "completion" := by
    intro n hn
    obtain ⟨i, offered, -, -, rfl⟩ := exists_of_mem_completions hcompletions hn
    rfl
  simp only [List.filter_append, Note.filter_isOf _ _ hhover, Note.filter_isOf _ _ hquery,
    Note.filter_isOf _ _ hhighlight, Note.filter_isOf _ _ hcompletion]
  exact ⟨by simpa using hhighlights, by simpa using hcompletions⟩

end Answered

/-- The notes of a kind in the result of a call that shows its sample, apart from their order. -/
theorem Annotator.exists_of_kind {a : Annotator} {q : Request} {w : World} {r : Result}
    (h : (a.annotate q w).1 = .ok r) (hemit : r.plan.behaviour.showEmit = false) :
    ∃ plan tags parts, a.reading q = .ok (plan, tags) ∧ plan.behaviour = r.plan.behaviour ∧
      (plan.identified w.trees).mapM
        (Answered.noted (a.job q) plan (w.serving a.slot a.script plan.options)) = .ok parts ∧
      ∀ kind, kind ≠ "tag" → kind ≠ "error" → (r.notes.filter (Note.isOf kind)).Perm
        (((parts.flatten.filter (Note.isOf kind)).filter (a.job q).keeps).filterMap
          (plan.left? r.code)) := by
  obtain ⟨plan, notes, hcollected, hending⟩ := exists_collected h
  obtain ⟨tags, found, errors, hreading, hpopulated, hdiagnosed, rfl⟩ := collected_ok hcollected
  have hbehaviour := Answered.behaviour_of_ending hending
  rw [hbehaviour] at hemit
  obtain ⟨parts, hparts, rfl⟩ := Answered.populated_ok hemit hpopulated
  refine ⟨plan, tags, parts, hreading, hbehaviour.symm, hparts, ?_⟩
  intro kind htag herror
  have htags : tags.filter (Note.isOf kind) = [] := by
    rw [Note.filter_isOf "tag", if_neg htag.symm]
    intro n hn
    obtain ⟨_, _, hbody⟩ := body_of_mem_tags hreading hn
    rw [Note.kindName, hbody, Note.Body.kindName]
  have herrors : errors.filter (Note.isOf kind) = [] := by
    rw [Note.filter_isOf "error", if_neg herror.symm]
    intro n hn
    obtain ⟨_, _, _, _, _, hbody⟩ := Answered.body_of_mem_errors hdiagnosed hn
    rw [Note.kindName, hbody, Note.Body.kindName]
  have hkind : ((tags ++ parts.flatten).filter (a.job q).keeps ++ errors).filter (Note.isOf kind) =
      (parts.flatten.filter (Note.isOf kind)).filter (a.job q).keeps := by
    rw [List.filter_append, herrors, List.append_nil, List.filter_comm, List.filter_append, htags,
      List.nil_append]
  have hperm := plan.filter_resolveAll_perm kind r.code
    ((tags ++ parts.flatten).filter (a.job q).keeps ++ errors)
  rw [hkind] at hperm
  rw [Answered.notes_of_ending hending, Plan.standing, if_neg (Bool.eq_false_iff.mp hemit)]
  exact hperm

end Marginalia
