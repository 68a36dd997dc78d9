import Marginalia.Proofs.Collected
import Marginalia.Proofs.Position

/-!
# The order of the notes

The notes of a result stand by their starts and at one start by their kinds.  Notes of one kind at
one start stand in the order in which they were collected.  The position of a note is that of its
start in the text of the result.
-/

namespace Marginalia
set_option autoImplicit false

namespace Note

theorem precedes_iff (a b : Note) :
    a.precedes b = true ↔ a.start < b.start ∨ a.start = b.start ∧ a.kindName ≤ b.kindName := by
  simp [precedes]

theorem precedes_trans (a b c : Note) (hab : a.precedes b = true) (hbc : b.precedes c = true) :
    a.precedes c = true := by
  rw [precedes_iff] at *
  rcases hab with hab | ⟨hab, hkinds⟩
  · exact Or.inl (by omega)
  · rcases hbc with hbc | ⟨hbc, hkinds'⟩
    · exact Or.inl (by omega)
    · exact Or.inr ⟨hab.trans hbc, String.le_trans hkinds hkinds'⟩

theorem precedes_total (a b : Note) : a.precedes b = true ∨ b.precedes a = true := by
  rw [precedes_iff, precedes_iff]
  rcases Int.lt_trichotomy a.start b.start with h | h | h
  · exact Or.inl (Or.inl h)
  · rcases String.le_total a.kindName b.kindName with hkinds | hkinds
    · exact Or.inl (Or.inr ⟨h, hkinds⟩)
    · exact Or.inr (Or.inr ⟨h.symm, hkinds⟩)
  · exact Or.inr (Or.inl h)

def standsAt (start : Int) (kind : String) (n : Note) : Bool := n.start == start && n.kindName == kind

theorem precedes_of_standsAt {start : Int} {kind : String} (a b : Note)
    (ha : a.standsAt start kind = true) (hb : b.standsAt start kind = true) : a.precedes b = true := by
  simp only [standsAt, Bool.and_eq_true, beq_iff_eq] at ha hb
  rw [precedes_iff, ha.1, hb.1, ha.2, hb.2]
  exact Or.inr ⟨rfl, String.le_refl kind⟩

theorem resolveAll_pairwise (code : List Char) (notes : List Note) :
    (resolveAll code notes).Pairwise fun m n =>
      m.start < n.start ∨ m.start = n.start ∧ m.kindName ≤ n.kindName := by
  unfold resolveAll
  apply List.pairwise_map.mpr
  have hsorted := Sorting.sort_pairwise precedes_trans precedes_total
    (notes.filter fun n => 0 ≤ n.start)
  exact hsorted.imp fun {m n} h => (precedes_iff m n).mp h

theorem filter_resolveAll (code : List Char) (notes : List Note) (start : Int) (kind : String) :
    (resolveAll code notes).filter (standsAt start kind) =
      ((notes.filter fun n => 0 ≤ n.start).filter (standsAt start kind)).map (resolve code) := by
  unfold resolveAll
  rw [List.filter_map]
  congr 1
  exact Sorting.filter_sort precedes_of_standsAt _

/-- The line and the column of a note in a text. -/
structure PlacedIn (code : List Char) (n : Note) (l : Line) : Prop where
  line : n.line = some (((code.take n.start.toNat).count '\n' : Nat) : Int)
  here : (Line.all code)[(code.take n.start.toNat).count '\n']? = some l
  column : n.column = some (n.start - l.start)

theorem placedIn_resolve {code : List Char} {n : Note} (h : 0 ≤ n.start) :
    ∃ l, (n.resolve code).PlacedIn code l := by
  obtain ⟨i, hi⟩ := Int.eq_ofNat_of_zero_le h
  obtain ⟨l, hl, hplace, -⟩ := Position.ofIndex_eq code i
  refine ⟨l, ?_, ?_, ?_⟩
  · simp only [resolve, hi, hplace, Int.toNat_natCast]
  · simpa only [resolve, hi, Int.toNat_natCast] using hl
  · simp only [resolve, hi, hplace]

end Note

/-- The notes of a result are in order, and those that tie are in the order of their collection.  None
is lost, and each has the line and the column of its start in the text of the result. -/
theorem Annotator.notes_in_order (a : Annotator) (q : Request) (w : World) (r : Result)
    (h : (a.annotate q w).1 = .ok r) :
    (r.notes.Pairwise fun m n => m.start < n.start ∨ m.start = n.start ∧ m.kindName ≤ n.kindName) ∧
      (∃ plan notes, a.collected q w = .ok (plan, notes) ∧ ∀ start kind,
        r.notes.filter (Note.standsAt start kind) =
          (((plan.standing notes).filter fun n => 0 ≤ n.start).filter
            (Note.standsAt start kind)).map (Note.resolve r.code)) ∧
      ∀ n ∈ r.notes, 0 ≤ n.start ∧ ∃ l, n.PlacedIn r.code l := by
  obtain ⟨plan, notes, hcollected, hending⟩ := exists_collected h
  have hnotes := Answered.notes_of_ending hending
  rw [hnotes]
  refine ⟨Note.resolveAll_pairwise r.code _, ⟨plan, notes, hcollected, ?_⟩, ?_⟩
  · exact Note.filter_resolveAll r.code (plan.standing notes)
  · intro n hn
    obtain ⟨m, -, hstart, rfl⟩ := Note.mem_resolveAll hn
    exact ⟨hstart, Note.placedIn_resolve hstart⟩

/-- Two errors tie at one place, where a hover and a query stand too. -/
theorem Annotator.notes_in_order_example :
    let a : Annotator :=
      { script :=
          { quickInfo := [("boom", .str "let boom")]
            rules := [⟨"boom".toList, .int 2, .str "no", .int 1⟩, ⟨"bo".toList, .int 1, .str "nor", .int 1⟩] }
        declarations := [] }
    let q : Request :=
      { code := "let a\na boom\n//^?\n".toList, behaviour := [("errors", .list [.int 1, .int 2])] }
    let w : World := {}
    ∃ r, (a.annotate q w).1 = .ok r ∧
      r.notes.map (fun n => (n.kindName, n.start, n.length)) =
        [("error", 8, 4), ("error", 8, 2), ("hover", 8, 4), ("query", 8, 4)] ∧
      r.notes.map (fun n => (n.line, n.column)) =
        List.replicate 4 (some 1, some 2) ∧
      (∃ plan notes, a.collected q w = .ok (plan, notes) ∧
        r.notes.filter (Note.standsAt 8 "error") =
          (((plan.standing notes).filter fun n => 0 ≤ n.start).filter
            (Note.standsAt 8 "error")).map (Note.resolve r.code)) ∧
      ∀ n ∈ r.notes, 0 ≤ n.start ∧ ∃ l, n.PlacedIn r.code l := by
  intro a q w
  have hrun : ((a.annotate q w).1.toOption.map fun r =>
      (r.notes.map fun n => (n.kindName, n.start, n.length),
        r.notes.map fun n => (n.line, n.column))) =
        some ([("error", 8, 4), ("error", 8, 2), ("hover", 8, 4), ("query", 8, 4)],
          List.replicate 4 (some 1, some 2)) := by
    decide +kernel
  obtain ⟨r, hr, hvalues⟩ := Outcome.exists_ok_of_toOption_map hrun
  obtain ⟨hmarks, hplaces⟩ := Prod.mk.inj hvalues
  obtain ⟨-, ⟨plan, notes, hcollected, hties⟩, hplaced⟩ := notes_in_order a q w r hr
  exact ⟨r, hr, hmarks, hplaces, ⟨plan, notes, hcollected, hties 8 "error"⟩, hplaced⟩

end Marginalia
