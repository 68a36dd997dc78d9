import Marginalia.Proofs.Fresh
import Marginalia.Proofs.Value.Canonical

/-!
# What emitted text can tell about earlier calls

The outputs of a file depend on the options of the checker and on the text of the file.  An output
for all files depends on which source files the checker holds, and in which order: there the files
of earlier calls come in.  They make no difference if they are the first of those that the call
registers itself.
-/

namespace Marginalia
set_option autoImplicit false

/-- The options look the same to whoever makes outputs from them. -/
def Entries.Alike (o o' : Entries) : Prop :=
  ∀ name, let v := (o.get? name).getD .null
    let v' := (o'.get? name).getD .null
    v.truthy = v'.truthy ∧ v.equalsInt Schema.preserveMarkup = v'.equalsInt Schema.preserveMarkup ∧
      Decode.string v = Decode.string v'

theorem Entries.alike_of_canonical_eq {o o' : Entries}
    (h : (Value.map o).canonical = (Value.map o').canonical) : o.Alike o' := by
  intro name
  have htext : ((o.get? name).getD .null).canonical = ((o'.get? name).getD .null).canonical := by
    have hvalue : ∀ o : Entries, ((o.get? name).getD .null).canonical =
        ((o.get? name).map Value.canonical).getD Value.null.canonical :=
      fun _ => (Option.getD_map _ _ _).symm
    rw [hvalue, hvalue, Value.canonical_get?_eq h name]
  refine ⟨?_, ?_, Value.string_eq_of_canonical_eq htext⟩
  · rw [Bool.eq_iff_iff, ← not_iff_not, Bool.not_eq_true, Bool.not_eq_true,
      ← Value.mem_unsetTexts_iff, ← Value.mem_unsetTexts_iff, htext]
  · have hunit : Schema.preserveMarkup = 1 := rfl
    rw [hunit, Bool.eq_iff_iff, ← Value.mem_unitTexts_iff, ← Value.mem_unitTexts_iff, htext]

namespace Checker

def paths (c : Checker) : List String := c.files.map Prod.fst

def enter (paths : List String) (path : String) : List String :=
  if path ∈ paths then paths else paths ++ [path]

section Enter
variable {paths added : List String} {path other : String}

theorem mem_enter : other ∈ enter paths path ↔ other ∈ paths ∨ other = path := by
  unfold enter
  split
  · next hmem =>
    refine ⟨Or.inl, ?_⟩
    rintro (h | rfl)
    · exact h
    · exact hmem
  · rw [List.mem_append, List.mem_singleton]

theorem nodup_enter (h : paths.Nodup) : (enter paths path).Nodup := by
  unfold enter
  split
  · exact h
  · next hnew =>
    refine List.nodup_append.mpr ⟨h, List.pairwise_singleton _ _, ?_⟩
    intro a ha b hb he
    rw [List.mem_singleton.mp hb] at he
    exact hnew (he ▸ ha)

end Enter

theorem paths_create (c : Checker) (path : String) (content : List Char) :
    (c.create path content).paths = enter c.paths path := by
  unfold paths create
  dsimp only
  induction c.files with
  | nil => rfl
  | cons f rest ih =>
    obtain ⟨p, text⟩ := f
    unfold setFile
    by_cases h : p = path
    · subst h
      rw [if_pos rfl]
      exact (if_pos List.mem_cons_self).symm
    · rw [if_neg h, List.map_cons, ih]
      unfold enter
      have hmem : path ∈ ((p, text) :: rest).map Prod.fst ↔ path ∈ rest.map Prod.fst := by
        rw [List.map_cons, List.mem_cons, or_iff_right (Ne.symm h)]
      simp only [hmem]
      split <;> rfl

end Checker

namespace Work
variable {job : Job} {start plan : Plan} {tags : List Note}

end Work

namespace Annotator

def Reads (a : Annotator) (calls : List Request) (plan : Plan) : Prop :=
  ∃ q ∈ calls, ∃ tags, a.reading q = .ok (plan, tags)

/-- What a checker is after some calls: its options are those of a call with its key, and it holds
files that such calls have registered. -/
structure Leaves (a : Annotator) (calls : List Request) (key : String) (c : Checker) : Prop where
  script : c.FromScript a.script
  nodup : c.paths.Nodup
  options : ∃ p, a.Reads calls p ∧ optionsKey p.options = key ∧ c.options = p.options
  paths : ∀ path ∈ c.paths, ∃ p, a.Reads calls p ∧ optionsKey p.options = key ∧
    ∃ s ∈ p.taken, s.path = path

variable {a : Annotator} {calls : List Request} {q : Request} {plan : Plan} {tags : List Note}

theorem Leaves.create {key : String} {c : Checker} (h : a.Leaves calls key c) {path : String}
    (content : List Char) (hpath : path ∈ c.paths ∨ ∃ p, a.Reads calls p ∧
      optionsKey p.options = key ∧ ∃ s ∈ p.taken, s.path = path) :
    a.Leaves calls key (c.create path content) := by
  refine ⟨h.script, ?_, h.options, ?_⟩
  · rw [Checker.paths_create]
    exact Checker.nodup_enter h.nodup
  · intro other hother
    rw [Checker.paths_create] at hother
    rcases Checker.mem_enter.mp hother with hother | rfl
    · exact h.paths other hother
    · rcases hpath with hpath | hpath
      · exact h.paths other hpath
      · exact hpath

theorem Leaves.congr {key : String} {c k : Checker} (h : a.Leaves calls key c)
    (hquiet : k.quiet = c.quiet) : a.Leaves calls key k := by
  obtain ⟨hoptions, hwords, hrules, hoffered, hfiles, -⟩ := Checker.mk.inj hquiet
  have hknown : k.knowledge = c.knowledge := Prod.ext hwords (Prod.ext hrules hoffered)
  have hpaths : k.paths = c.paths := congrArg (List.map Prod.fst) hfiles
  refine ⟨?_, ?_, ?_, ?_⟩
  · have hscript := h.script
    unfold Checker.FromScript at hscript ⊢
    rw [hknown]
    exact hscript
  · rw [hpaths]
    exact h.nodup
  · rw [hoptions]
    exact h.options
  · rw [hpaths]
    exact h.paths

end Annotator

namespace Annotator
variable {a : Annotator} {calls : List Request} {q : Request} {plan : Plan} {tags : List Note}

end Annotator

end Marginalia
