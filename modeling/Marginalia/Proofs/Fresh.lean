import Marginalia.Proofs.Session

/-!
# A shared checker answers as a new one

A run that does not show the emitted text reads only files that it has registered itself, and the
options of its checker not at all.  So the files and the options with which earlier calls left a
shared checker make no difference to it.
-/

namespace Marginalia
set_option autoImplicit false

namespace Checker

/-- What a checker has from its script. -/
def knowledge (c : Checker) :
    List (String × QuickInfo) × List Rule × Option (List Completion) :=
  (c.quickInfo, c.rules, c.offered)

variable {c k : Checker}

theorem knowledge_holding (c : Checker) (sections : List Section) :
    (c.holding sections).knowledge = c.knowledge := by
  induction sections generalizing c with
  | nil => rfl
  | cons s rest ih => exact ih (c.create s.path s.content)

theorem textOf_congr {path : String} (hfile : k.file? path = c.file? path) :
    k.textOf path = c.textOf path := by
  unfold textOf
  rw [hfile]

theorem infoAt_congr (h : k.knowledge = c.knowledge) {path : String}
    (hfile : k.file? path = c.file? path) (offset : Int) :
    k.infoAt path offset = c.infoAt path offset := by
  obtain ⟨hwords, -⟩ := Prod.mk.inj h
  unfold infoAt
  rw [textOf_congr hfile, hwords]

theorem completions?_congr (h : k.knowledge = c.knowledge) {path : String}
    (hfile : k.file? path = c.file? path) : k.completions? path = c.completions? path := by
  have hoffered : k.offered = c.offered := (Prod.mk.inj (Prod.mk.inj h).2).2
  unfold completions?
  rw [hfile, hoffered]

end Checker

theorem Plan.registers_of_isSource {plan : Plan} {s : Section}
    (h : Language.isSource s.extension = true) : plan.registers s = true := by
  unfold registers
  split
  · next hjson =>
    rw [beq_iff_eq.mp hjson] at h
    cases h
  · exact h

namespace Answered
variable {job : Job} {plan : Plan}

section Section
variable {c k : Checker} {s : Section} (h : k.knowledge = c.knowledge)
  (hfile : k.file? s.path = c.file? s.path)
include h hfile

theorem notes_congr (xs : List Identifier) : notes job plan k s xs = notes job plan c s xs := by
  have hinfo := Checker.infoAt_congr h hfile
  have hcompletions := Checker.completions?_congr h hfile
  have hhover : hover job plan k s = hover job plan c s := by
    funext x
    unfold hover
    rw [hinfo]
  have hquery : query job k s xs = query job c s xs := by
    funext i
    unfold query
    simp only [hinfo]
  have hhighlighted : highlighted k s = highlighted c s := by
    funext m x
    unfold highlighted
    rw [hinfo]
  have hhighlight : highlight job k s xs = highlight job c s xs := by
    funext m
    unfold highlight
    rw [hhighlighted]
  have hcompletion : completion job plan k s = completion job plan c s := by
    funext i
    unfold completion
    rw [hcompletions]
  unfold notes hovers queries highlights completions
  rw [hhover, hquery, hhighlight, hcompletion]

end Section

variable {p p' : Except Failure Checker} (h : p'.map Checker.knowledge = p.map Checker.knowledge)
include h

end Answered

namespace Checker

def FromScript (script : Script) (c : Checker) : Prop :=
  (ofScript script []).map knowledge = .ok c.knowledge

end Checker

namespace Annotator

end Annotator

end Marginalia
