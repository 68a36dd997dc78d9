import Marginalia.Proofs.Session

/-!
# Calls that differ in one option

A caller sets behaviour options, and then the flags of a sample set them.  When two calls differ
in one option and no flag of the sample sets it, their plans differ in that option and in nothing
else, or both calls are refused for the same reason.
-/

namespace Marginalia
set_option autoImplicit false

/-! ## Decoding -/

namespace Checked

theorem map_seq {α β γ : Type} (g : β → γ) (f : Checked (α → β)) (x : Checked α) :
    g <$> (f <*> x) = (fun make a => g (make a)) <$> f <*> x := by
  match f, x with
  | .ok _, .ok _ => rfl
  | .ok _, .error _ => rfl
  | .error _, .ok _ => rfl
  | .error _, .error _ => rfl

theorem seq_ok {α β : Type} (f : Checked (α → β)) (a : α) :
    f <*> (.ok a : Checked α) = (fun make => make a) <$> f := by
  match f with
  | .ok _ => rfl
  | .error _ => rfl

theorem map_map {α β γ : Type} (g : β → γ) (f : α → β) (x : Checked α) :
    g <$> f <$> x = (fun a => g (f a)) <$> x := by
  match x with
  | .ok _ => rfl
  | .error _ => rfl

end Checked

/-- Two sets of options for calls of an annotator that differ in one option: the first switches it on
and the second off. -/
structure Annotator.Switches (a : Annotator) (field : Behaviour.Field) (on off : Entries) : Prop where
  others : ∀ f, f ≠ field →
    Behaviour.given? (Entries.merge a.behaviour on) f =
      Behaviour.given? (Entries.merge a.behaviour off) f
  on : Behaviour.optional (Entries.merge a.behaviour on) field false Decode.boolean = .ok true
  off : Behaviour.optional (Entries.merge a.behaviour off) field false Decode.boolean = .ok false

namespace Behaviour

theorem optional_congr {α : Type} {on off : Entries} {f : Field} (h : given? on f = given? off f)
    (default : α) (read : Value → Checked α) :
    optional on f default read = optional off f default read := by
  unfold optional
  rw [h]

/-- What is decoded with a switch on is what is decoded with the switch off, and then switched on. -/
theorem decode_switched {field : Field} (hswitch : field.isSwitch = true) {on off : Entries}
    (hothers : ∀ f, f ≠ field → given? on f = given? off f)
    (hon : optional on field false Decode.boolean = .ok true)
    (hoff : optional off field false Decode.boolean = .ok false) :
    decode on = (fun b => b.set field (.bool true)) <$> decode off := by
  have hsame : ∀ {α : Type} (f : Field) (default : α) (read : Value → Checked α), f ≠ field →
      optional on f default read = optional off f default read :=
    fun f default read hf => optional_congr (hothers f hf) default read
  -- Both sides come down to one function of what the other options are decoded to.
  cases field with
  | errors | noErrors | showEmittedFile => cases hswitch
  | _ =>
    simp only [decode, hsame, hon, hoff, ne_eq, reduceCtorEq, not_false_eq_true, Checked.seq_ok,
      Checked.map_seq, Checked.map_map]
    rfl

/-- The change touches one option only: it can be made before or after another option is set, and
the options that reading and showing a sample depend on are not that option. -/
structure Changes (field : Field) (change : Behaviour → Behaviour) : Prop where
  set : ∀ b f v, f ≠ field → (change b).set f v = change (b.set f v)
  validation : ∀ b, (change b).noErrorValidation = b.noErrorValidation
  emit : ∀ b, (change b).showEmit = b.showEmit
  file : ∀ b, (change b).showEmittedFile = b.showEmittedFile
  keep : ∀ b, (change b).keepNotations = b.keepNotations

theorem changes_switch {field : Field}
    (h : field = .noErrorsCutted ∨ field = .noStaticSemanticInfo) :
    Changes field fun b => b.set field (.bool true) := by
  constructor
  · intro b f v hf
    rcases h with rfl | rfl <;> cases f <;> first | exact absurd rfl hf | cases v <;> rfl
  all_goals
    intro b
    rcases h with rfl | rfl <;> rfl

end Behaviour

/-! ## Reading -/

def Plan.changed (change : Behaviour → Behaviour) (p : Plan) : Plan :=
  { p with behaviour := change p.behaviour }

/-- The flag sets the option. -/
def Flag.Sets (field : Behaviour.Field) (f : Flag) : Prop :=
  f.kind = .behaviour ∧ f.name = field.spelling

section Changed
variable {field : Behaviour.Field} {change : Behaviour → Behaviour}
  (hchange : Behaviour.Changes field change)
include hchange

namespace Plan

theorem applyFlag_changed (p : Plan) {f : Flag} (hf : ¬ f.Sets field) :
    (p.changed change).applyFlag f = (p.applyFlag f).changed change := by
  unfold applyFlag
  cases hkind : f.kind with
  | behaviour =>
    dsimp only
    cases hfield : Behaviour.Field.ofSpelling? f.name with
    | none => rfl
    | some found =>
      have hne : found ≠ field := by
        rintro rfl
        unfold Behaviour.Field.ofSpelling? at hfield
        have hname := List.find?_some hfield
        exact hf ⟨hkind, (beq_iff_eq.mp hname).symm⟩
      dsimp only
      rw [changed, changed, ← hchange.set _ _ _ hne]
  | _ => rfl

theorem foldl_applyFlag_changed (p : Plan) {flags : List Flag} (h : ∀ f ∈ flags, ¬ f.Sets field) :
    flags.foldl applyFlag (p.changed change) = (flags.foldl applyFlag p).changed change := by
  induction flags generalizing p with
  | nil => rfl
  | cons f rest ih =>
    rw [List.foldl_cons, List.foldl_cons, applyFlag_changed hchange p (h f List.mem_cons_self)]
    exact ih (p.applyFlag f) fun g hg => h g (List.mem_cons_of_mem f hg)

theorem checkOptions_changed (p : Plan) : (p.changed change).checkOptions = p.checkOptions := by
  simp only [checkOptions, changed, hchange.validation, hchange.emit, hchange.keep]

theorem read_changed (start : Plan) {vocabulary : Flag.Vocabulary} {root : String} {code : List Char}
    (h : ∀ flags, Flag.findAll vocabulary code = .ok flags → ∀ f ∈ flags, ¬ f.Sets field) :
    (start.changed change).read vocabulary root code =
      (start.read vocabulary root code).map fun x => (x.1.changed change, x.2) := by
  unfold read
  cases hflags : Flag.findAll vocabulary code with
  | error e => rfl
  | ok flags =>
    have hwith : (start.changed change).withFlags flags = (start.withFlags flags).changed change := by
      unfold withFlags
      rw [foldl_applyFlag_changed hchange start (h flags hflags)]
      rfl
    rw [Outcome.ok_bind, Outcome.ok_bind]
    dsimp only
    rw [hwith, checkOptions_changed hchange]
    cases (start.withFlags flags).checkOptions with
    | error e => rfl
    | ok _ =>
      rw [Outcome.ok_bind, Outcome.ok_bind]
      cases Cut.findAll code with
      | error e => rfl
      | ok cuts => rfl

end Plan

namespace Annotator
variable {a : Annotator} {on off : Entries}

omit hchange in
theorem plan_changed (hdecode : Behaviour.decode (Entries.merge a.behaviour on) =
      change <$> Behaviour.decode (Entries.merge a.behaviour off)) (q : Request) :
    a.plan { q with behaviour := on } =
      (a.plan { q with behaviour := off }).map (Plan.changed change) := by
  unfold plan
  dsimp only
  rw [hdecode]
  cases Language.extensionOfTag q.language with
  | error e => rfl
  | ok extension =>
    match Behaviour.decode (Entries.merge a.behaviour off) with
    | .error faults => rfl
    | .ok b =>
      have hasked : Request.asked { q with behaviour := on } =
          Request.asked { q with behaviour := off } := rfl
      rw [hasked]
      match Request.asked { q with behaviour := off } with
      | .error faults => rfl
      | .ok asked => rfl

theorem reading_changed (hdecode : Behaviour.decode (Entries.merge a.behaviour on) =
      change <$> Behaviour.decode (Entries.merge a.behaviour off)) (q : Request)
    (hflags : ∀ flags, Flag.findAll (a.job q).vocabulary q.code = .ok flags →
      ∀ f ∈ flags, ¬ f.Sets field) :
    a.reading { q with behaviour := on } =
      (a.reading { q with behaviour := off }).map fun x => (x.1.changed change, x.2) := by
  unfold reading
  rw [plan_changed hdecode q]
  cases a.plan { q with behaviour := off } with
  | error e => rfl
  | ok start => exact start.read_changed hchange hflags

omit hchange in
theorem Switches.reading_eq (h : a.Switches field on off)
    (hfield : field = .noErrorsCutted ∨ field = .noStaticSemanticInfo) (q : Request)
    (hflags : ∀ flags, Flag.findAll (a.job q).vocabulary q.code = .ok flags →
      ∀ f ∈ flags, ¬ f.Sets field) :
    a.reading { q with behaviour := on } = (a.reading { q with behaviour := off }).map fun x =>
      (x.1.changed fun b => b.set field (.bool true), x.2) := by
  have hswitch : field.isSwitch = true := by
    rcases hfield with rfl | rfl <;> rfl
  exact reading_changed (Behaviour.changes_switch hfield)
    (Behaviour.decode_switched hswitch h.others h.on h.off) q hflags

end Annotator

/-! ## Showing the emitted text -/

theorem Answered.shown_changed {job : Job} {plan : Plan} (p : Except Failure Checker) :
    shown job (plan.changed change) p = (shown job plan p).map fun x => (x.1, x.2.changed change) := by
  have hname : Work.shownName (plan.changed change) = Work.shownName plan := by
    have hfile : (plan.changed change).behaviour.showEmittedFile = plan.behaviour.showEmittedFile :=
      hchange.file _
    unfold Work.shownName
    rw [hfile]
    rfl
  have hsource : ∀ name, Work.sourceFor? (plan.changed change) name = Work.sourceFor? plan name :=
    fun _ => rfl
  unfold shown
  dsimp only
  rw [hname, hsource]
  cases Work.sourceFor? plan (Work.shownName plan) with
  | none => rfl
  | some source =>
    dsimp only
    cases (p >>= fun c => c.emit (job.root ++ source)) with
    | error e => rfl
    | ok outputs =>
      rw [Outcome.ok_bind, Outcome.ok_bind]
      split <;> rfl

end Changed

end Marginalia
