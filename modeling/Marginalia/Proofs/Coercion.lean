import Marginalia.Plan
import Marginalia.Proofs.FlagLine

/-!
# Values of options

A flag line gives its option a value of the type that is declared for the option, or the value is
refused.  There is no third outcome.  So a behaviour option can be set to what its flag carries
without another look at it, and the options in effect are those that were written last.
-/

namespace Marginalia
set_option autoImplicit false

namespace Outcome
variable {ε α β : Type} {E : ε → Prop} {P : α → Prop} {Q : β → Prop}

structure Yields (P : α → Prop) (E : ε → Prop) (x : Except ε α) : Prop where
  ok : ∀ a, x = .ok a → P a
  error : FailsOnly E x

theorem Yields.of_ok {a : α} (h : P a) : Yields P E (.ok a : Except ε α) := by
  refine ⟨?_, failsOnly_ok a⟩
  rintro _ ⟨⟩
  exact h

theorem Yields.of_error {e : ε} (h : E e) : Yields P E (.error e : Except ε α) := by
  refine ⟨?_, failsOnly_error h⟩
  rintro _ ⟨⟩

theorem Yields.bind {x : Except ε α} (h : Yields P E x) {f : α → Except ε β}
    (hf : ∀ a, P a → Yields Q E (f a)) : Yields Q E (x >>= f) := by
  cases x with
  | ok a => exact hf a (h.ok a rfl)
  | error e => exact .of_error (h.error e rfl)

theorem Yields.map {x : Except ε α} (h : Yields P E x) {f : α → β} (hf : ∀ a, P a → Q (f a)) :
    Yields Q E (x.map f) := by
  cases x with
  | ok a => exact .of_ok (hf a (h.ok a rfl))
  | error e => exact .of_error (h.error e rfl)

theorem Yields.mono {P' : α → Prop} {x : Except ε α} (h : Yields P E x) (hP : ∀ a, P a → P' a) :
    Yields P' E x :=
  ⟨fun a ha => hP a (h.ok a ha), h.error⟩

theorem Yields.mapM {f : β → Except ε α} {xs : List β} (h : ∀ x ∈ xs, Yields P E (f x)) :
    Yields (fun ys => ys.length = xs.length ∧ ∀ y ∈ ys, P y) E (xs.mapM f) := by
  induction xs with
  | nil => exact .of_ok ⟨rfl, fun y hy => absurd hy List.not_mem_nil⟩
  | cons x xs ih =>
    rw [List.mapM_cons]
    refine (h x List.mem_cons_self).bind fun a ha => ?_
    refine (ih fun y hy => h y (List.mem_cons_of_mem x hy)).bind fun as has => ?_
    refine .of_ok ⟨congrArg (· + 1) has.1, fun y hy => ?_⟩
    rcases List.mem_cons.mp hy with rfl | hy
    · exact ha
    · exact has.2 y hy

end Outcome

open Outcome

/-- The value of an option is refused. -/
def Failure.IsInvalidValue (e : Failure) : Prop :=
  ∃ name value objection, e = .invalidValue name value objection

/-! ## Types -/

theorem Kind.name_injective {k k' : Kind} (h : k.name = k'.name) : k = k' := by
  have hsame := congrArg Kind.ofName? h
  rw [ofName?_name, ofName?_name] at hsame
  exact Option.some.inj hsame

/-- The values of a kind.  Numbers are finite.  What a list holds is declared with the list, so no value
is a list by its kind alone. -/
def Kind.Holds : Kind → Value → Prop
  | .boolean, .bool _ => True
  | .number, .int _ => True
  | .number, .float x => x.isFinite = true
  | .string, .str _ => True
  | _, _ => False

/-- The values of a type: those of its kind, or those of the enumeration that are not null. -/
def OptionType.Holds : OptionType → Value → Prop
  | .plain kind, v => kind.Holds v
  | .enum values, v => v ≠ .null ∧ ∃ key, (key, v) ∈ values

/-- The values of a declared option.  A list has at least one element. -/
def Declaration.Holds (d : Declaration) (v : Value) : Prop :=
  match d.type, d.element with
  | .plain .list, some e => ∃ items, v = .list items ∧ items ≠ [] ∧ ∀ item ∈ items, e.type.Holds item
  | type, _ => type.Holds v

def Value.IsCodes (v : Value) : Prop := ∃ codes : List Int, v = .list (codes.map .int)

/-- The values of a behaviour option. -/
def Behaviour.Field.Holds : Field → Value → Prop
  | errors, v => v.IsCodes
  | noErrors, v => (∃ b, v = .bool b) ∨ v.IsCodes
  | showEmittedFile, v => ∃ s, v = .str s
  | _, v => ∃ b, v = .bool b

/-! ## Coercions -/

namespace Coercion
variable {name : String} {v : Value}

abbrev Coerces (P : Value → Prop) (x : Except Failure Value) : Prop :=
  Yields P Failure.IsInvalidValue x

theorem orRefuse_eq_ok {kind : String} {o : Option Value} {x : Value} :
    orRefuse name v kind o = .ok x ↔ o = some x := by
  cases o <;> simp [orRefuse]

theorem error_of_orRefuse {kind : String} {o : Option Value} {e : Failure}
    (h : orRefuse name v kind o = .error e) : e = .invalidValue name v (.notOfKind kind) := by
  cases o with
  | some x => cases h
  | none =>
    cases h
    rfl

theorem holds_of_boolean {x : Value} (h : boolean? v = some x) : Kind.boolean.Holds x := by
  unfold boolean? at h
  split at h
  · cases h
    trivial
  · obtain ⟨b, -, rfl⟩ := Option.map_eq_some_iff.mp h
    trivial

theorem holds_of_string {x : Value} (h : string? v = some x) : Kind.string.Holds x := by
  unfold string? at h
  split at h
  · cases h
    trivial
  · cases h

theorem holds_of_readNumber {text : List Char} {x : Value} (h : readNumber? text = some x) :
    Kind.number.Holds x := by
  unfold readNumber? at h
  split at h
  · cases h
  · split at h
    · cases h
      trivial
    · split at h
      · split at h
        · next hfinite =>
          cases h
          exact hfinite
        · cases h
      · cases h

theorem holds_of_number {x : Value} (h : number v = .ok (some x)) : Kind.number.Holds x := by
  cases v with
  | int n =>
    simp only [number] at h
    split at h
    · cases h
      trivial
    · cases h
  | float y =>
    have h := Except.ok.inj h
    split at h
    · next hfinite =>
      cases h
      exact hfinite
    · exact holds_of_readNumber h
  | _ => exact holds_of_readNumber (Except.ok.inj h)

theorem error_of_number {e : Failure} (h : number v = .error e) :
    e = .integerTooLarge ∧ ∃ n, v = .int n ∧ Binary64.integerLimit ≤ n.natAbs := by
  cases v with
  | int n =>
    simp only [number] at h
    split at h
    · cases h
    · next hlimit =>
      cases h
      exact ⟨rfl, n, rfl, Nat.le_of_not_lt hlimit⟩
  | _ => cases h

theorem holds_of_primitive {kind : String} {x : Value} (h : primitive name v kind = .ok x) :
    ∃ k : Kind, k.name = kind ∧ k.Holds x := by
  unfold primitive at h
  split at h
  · exact ⟨.boolean, rfl, holds_of_boolean (orRefuse_eq_ok.mp h)⟩
  · obtain ⟨o, ho, h⟩ := Outcome.bind_eq_ok.mp h
    obtain rfl := orRefuse_eq_ok.mp h
    exact ⟨.number, rfl, holds_of_number ho⟩
  · exact ⟨.string, rfl, holds_of_string (orRefuse_eq_ok.mp h)⟩
  · cases h

theorem error_of_primitive {kind : String} {e : Failure} (h : primitive name v kind = .error e) :
    (∃ objection, e = .invalidValue name v objection) ∨
      kind = Kind.number.name ∧ ∃ n, v = .int n ∧ Binary64.integerLimit ≤ n.natAbs := by
  unfold primitive at h
  split at h
  · exact Or.inl ⟨_, error_of_orRefuse h⟩
  · rcases Outcome.bind_eq_error.mp h with h | ⟨o, -, h⟩
    · exact Or.inr ⟨rfl, (error_of_number h).2⟩
    · exact Or.inl ⟨_, error_of_orRefuse h⟩
  · exact Or.inl ⟨_, error_of_orRefuse h⟩
  · cases h
    exact Or.inl ⟨_, rfl⟩

theorem coerces_primitive (hv : ∀ n, v ≠ .int n) (kind : Kind) :
    Coerces kind.Holds (primitive name v kind.name) := by
  constructor
  · intro x hx
    obtain ⟨k, hname, hholds⟩ := holds_of_primitive hx
    rwa [← Kind.name_injective hname]
  · intro e he
    rcases error_of_primitive he with ⟨objection, rfl⟩ | ⟨-, n, hn, -⟩
    · exact ⟨name, v, objection, rfl⟩
    · exact absurd hn (hv n)

theorem mem_of_lookUp {values : Entries} {x : Value} (h : lookUp? values v = some x) :
    x ≠ .null ∧ ∃ key, (key, x) ∈ values := by
  unfold lookUp? at h
  split at h
  · split at h
    · cases h
    · next hnull =>
      refine ⟨fun hx => hnull (hx ▸ h), ?_⟩
      obtain ⟨⟨key, y⟩, hfound, rfl⟩ := Option.map_eq_some_iff.mp h
      exact ⟨key, List.mem_of_find?_eq_some hfound⟩
  · cases h

theorem coerces_fromEnum (values : Entries) :
    Coerces (OptionType.enum values).Holds (fromEnum name v values) := by
  unfold fromEnum
  split
  · next x hx => exact .of_ok (mem_of_lookUp hx)
  · exact .of_error ⟨name, v, _, rfl⟩

theorem coerces_element (hv : ∀ n, v ≠ .int n) (type : OptionType) :
    Coerces type.Holds (element name type v) := by
  cases type with
  | plain kind => exact coerces_primitive hv kind
  | enum values => exact coerces_fromEnum values

theorem yields_elements (type : OptionType) (s : String) :
    Yields (fun items => items ≠ [] ∧ ∀ item ∈ items, type.Holds item) Failure.IsInvalidValue
      ((elements s).mapM (element name type)) := by
  have hall : ∀ item ∈ elements s, Coerces type.Holds (element name type item) := by
    intro item hitem
    obtain ⟨piece, -, rfl⟩ := List.mem_map.mp hitem
    exact coerces_element (fun n hn => by cases hn) type
  refine (Yields.mapM hall).mono fun items hitems => ⟨?_, hitems.2⟩
  rintro rfl
  have hlength := hitems.1
  rw [elements, List.length_map] at hlength
  exact Text.splitOn_ne_nil ',' s.toList (List.length_eq_zero_iff.mp hlength.symm)

theorem coerces_codeList (s : String) : Coerces Value.IsCodes (codeList name s) := by
  unfold codeList
  split
  · next codes _ => exact .of_ok ⟨codes, rfl⟩
  · exact .of_error ⟨name, .str s, _, rfl⟩

end Coercion

open Coercion

theorem Declaration.coerces_coerce (d : Declaration) {v : Value} (hv : ∀ n, v ≠ .int n) :
    Coerces d.Holds (d.coerce v) := by
  obtain ⟨name, type, element⟩ := d
  cases type with
  | enum values => exact coerces_fromEnum values
  | plain kind =>
    cases kind with
    | boolean => exact coerces_primitive hv .boolean
    | number => exact coerces_primitive hv .number
    | string => exact coerces_primitive hv .string
    | list =>
      cases element with
      | none => exact .of_error ⟨name, v, .notAList, rfl⟩
      | some e =>
        cases v with
        | str s =>
          exact (yields_elements e.type s).map fun items hitems => ⟨items, rfl, hitems.1, hitems.2⟩
        | _ => exact .of_error ⟨name, _, .notAList, rfl⟩

def Value.IsWritten (v : Value) : Prop := v = .bool true ∨ ∃ s, v = .str s

theorem Value.IsWritten.ne_int {v : Value} (h : v.IsWritten) (n : Int) : v ≠ .int n := by
  rcases h with rfl | ⟨s, rfl⟩ <;> rintro ⟨⟩

theorem Directive.Gives.isWritten {line : List Char} {name : String} {value : Value}
    (h : Gives line name value) : value.IsWritten := by
  cases h with
  | bare => exact Or.inl rfl
  | valued text => exact Or.inr ⟨_, rfl⟩

namespace Behaviour.Field

theorem coerce_switch {f : Field} (h : f.isSwitch = true) (s : String) :
    f.coerce (.str s) = primitive f.spelling (.str s) Kind.boolean.name := by
  unfold coerce
  cases f with
  | errors => cases h
  | noErrors => cases h
  | showEmittedFile => cases h
  | _ => rfl

theorem coerces_switch {name : String} (s : String) :
    Coerces (fun v => ∃ b, v = .bool b) (primitive name (.str s) Kind.boolean.name) := by
  refine (coerces_primitive (fun n hn => by cases hn) .boolean).mono fun x hx => ?_
  cases x with
  | bool b => exact ⟨b, rfl⟩
  | _ => exact hx.elim

theorem coerces_coerce (f : Field) {v : Value} (hv : v.IsWritten) : Coerces f.Holds (f.coerce v) := by
  rcases hv with rfl | ⟨s, rfl⟩
  · cases f with
    | errors => exact .of_error ⟨_, _, .noValue, rfl⟩
    | showEmittedFile => exact .of_error ⟨_, _, .noValue, rfl⟩
    | noErrors => exact .of_ok (Or.inl ⟨true, rfl⟩)
    | _ => exact .of_ok ⟨true, rfl⟩
  · cases f with
    | errors => exact coerces_codeList s
    | showEmittedFile => exact .of_ok ⟨s, rfl⟩
    | noErrors =>
      unfold coerce
      dsimp only
      split
      · exact .of_ok (Or.inl ⟨true, rfl⟩)
      · split
        · exact .of_ok (Or.inl ⟨false, rfl⟩)
        · exact (coerces_codeList s).mono fun x hx => Or.inr hx
    | _ =>
      rw [coerce_switch rfl]
      exact coerces_switch s

end Behaviour.Field

/-! ## Flags -/

namespace Flag
variable {v : Vocabulary} {name : String} {value : Value} {span : Span} {code : List Char}

/-- The first declaration of the schema whose name is this one in lower case. -/
def Vocabulary.Declares (v : Vocabulary) (name : String) (d : Declaration) : Prop :=
  ∃ before after, v.declarations = before ++ d :: after ∧ Text.lower d.name = Text.lower name ∧
    ∀ other ∈ before, Text.lower other.name ≠ Text.lower name

/-- What the name and the value of a flag line make of a flag.  A tag goes before the schema, and the
schema before the behaviour options. -/
inductive Typed (v : Vocabulary) (name : String) (value : Value) (span : Span) : Flag → Prop where
  | tag (htag : name ∈ v.tags) : Typed v name value span ⟨.tag, name, value, span⟩
  | compiler {d : Declaration} {coerced : Value} (htag : name ∉ v.tags) (hd : v.Declares name d)
      (hholds : d.Holds coerced) : Typed v name value span ⟨.compiler, d.name, coerced, span⟩
  | behaviour {field : Behaviour.Field} {coerced : Value} (htag : name ∉ v.tags)
      (hnone : ∀ d ∈ v.declarations, Text.lower d.name ≠ Text.lower name)
      (hfield : field.spelling = name) (hholds : field.Holds coerced) :
      Typed v name value span ⟨.behaviour, name, coerced, span⟩
  | unknown (htag : name ∉ v.tags)
      (hnone : ∀ d ∈ v.declarations, Text.lower d.name ≠ Text.lower name)
      (hfield : ∀ field : Behaviour.Field, field.spelling ≠ name) :
      Typed v name value span ⟨.unknown, name, value, span⟩

theorem declares_of_declaration? {d : Declaration} (h : v.declaration? name = some d) :
    v.Declares name d := by
  obtain ⟨hname, before, after, hsplit, hbefore⟩ := List.find?_eq_some_iff_append.mp h
  exact ⟨before, after, hsplit, by simpa using hname, fun other hother => by simpa using hbefore other hother⟩

theorem lower_ne_of_declaration? (h : v.declaration? name = none) :
    ∀ d ∈ v.declarations, Text.lower d.name ≠ Text.lower name := by
  intro d hd
  simpa using List.find?_eq_none.mp h d hd

theorem ofSpelling?_eq_some_iff {field : Behaviour.Field} :
    Behaviour.Field.ofSpelling? name = some field ↔ field.spelling = name := by
  constructor
  · intro h
    simpa using List.find?_some h
  · rintro rfl
    exact Behaviour.Field.ofSpelling?_spelling field

theorem yields_parse (v : Vocabulary) (name : String) (span : Span) (hvalue : value.IsWritten) :
    Yields (Typed v name value span) Failure.IsInvalidValue (parse v name value span) := by
  unfold parse read
  split
  · next htag => exact Yields.map (.of_ok (.tag (List.contains_iff_mem.mp htag))) fun f hf => hf
  · next htag =>
    have htag : name ∉ v.tags := fun hmem => htag (List.contains_iff_mem.mpr hmem)
    split
    · next d hd =>
      refine Yields.map ((d.coerces_coerce hvalue.ne_int).map fun x hx => ?_) fun place hplace => hplace
      exact .compiler htag (declares_of_declaration? hd) hx
    · next hnone =>
      have hnone := lower_ne_of_declaration? hnone
      split
      · next field hfield =>
        refine Yields.map ((field.coerces_coerce hvalue).map fun x hx => ?_) fun place hplace => hplace
        exact .behaviour htag hnone (ofSpelling?_eq_some_iff.mp hfield) hx
      · next hfield =>
        refine Yields.of_ok (.unknown htag hnone fun field hname => ?_)
        rw [ofSpelling?_eq_some_iff.mpr hname] at hfield
        cases hfield

theorem failsOnly_findAll (v : Vocabulary) (code : List Char) :
    FailsOnly Failure.IsInvalidValue (findAll v code) := by
  rw [findAll_eq]
  refine (FailsOnly.mapM fun x _ => ?_).bind fun bare _ => ?_
  · exact (yields_parse v x.2 x.1.span (Or.inl rfl)).error
  refine (FailsOnly.mapM fun x _ => ?_).bind fun valued _ => failsOnly_ok _
  exact (yields_parse v x.2.1 x.1.span (Or.inr ⟨x.2.2, rfl⟩)).error

def sets (field : Behaviour.Field) (f : Flag) : Bool :=
  f.kind == .behaviour && f.name == field.spelling

theorem sets_iff {f : Flag} {field : Behaviour.Field} :
    f.sets field = true ↔
      f.kind = .behaviour ∧ Behaviour.Field.ofSpelling? f.name = some field := by
  rw [ofSpelling?_eq_some_iff, sets, Bool.and_eq_true, beq_iff_eq, beq_iff_eq]
  exact and_congr_right fun _ => eq_comm

theorem Typed.holds {f : Flag} (h : Typed v name value span f) {field : Behaviour.Field}
    (hsets : f.sets field = true) : field.Holds f.value := by
  cases h with
  | behaviour htag hnone hfield hholds =>
    obtain ⟨-, hfound⟩ := sets_iff.mp hsets
    rw [ofSpelling?_eq_some_iff.mpr hfield] at hfound
    rwa [← Option.some.inj hfound]
  | _ => cases hsets

end Flag

/-! ## Behaviour options -/

namespace Behaviour
variable {f : Field} {v : Value}

theorem filterMap_intOf? (codes : List Int) : (codes.map Value.int).filterMap intOf? = codes := by
  rw [List.filterMap_map]
  exact List.filterMap_some

theorem get_set_self (h : f.Holds v) (b : Behaviour) : (b.set f v).get f = v := by
  cases f with
  | errors =>
    obtain ⟨codes, rfl⟩ := h
    simp only [set, get, filterMap_intOf?]
  | noErrors =>
    rcases h with ⟨on, rfl⟩ | ⟨codes, rfl⟩
    · cases on <;> rfl
    · simp only [set, get, Silence.toValue, filterMap_intOf?]
  | _ =>
    obtain ⟨x, rfl⟩ := h
    rfl

theorem get_set_of_ne {other : Field} (h : other ≠ f) (v : Value) (b : Behaviour) :
    (b.set f v).get other = b.get other := by
  unfold set
  split <;> cases other <;> first | rfl | exact absurd rfl h

end Behaviour

namespace Plan
variable {flags : List Flag}

theorem behaviour_applyFlag (p : Plan) (f : Flag) (field : Behaviour.Field)
    (h : f.sets field = true → field.Holds f.value) :
    (p.applyFlag f).behaviour.get field =
      if f.sets field then f.value else p.behaviour.get field := by
  unfold applyFlag
  split
  · next hkind =>
    have hnot : ¬ f.sets field = true := by simp [Flag.sets_iff, hkind]
    rw [if_neg hnot]
  · next hkind =>
    split
    · next other hother =>
      by_cases hsame : field = other
      · subst hsame
        have hsets := Flag.sets_iff.mpr ⟨hkind, hother⟩
        rw [if_pos hsets]
        exact Behaviour.get_set_self (h hsets) p.behaviour
      · have hnot : ¬ f.sets field = true := by simp [Flag.sets_iff, hother, Ne.symm hsame]
        rw [if_neg hnot]
        exact Behaviour.get_set_of_ne hsame f.value p.behaviour
    · next hnone =>
      have hnot : ¬ f.sets field = true := by simp [Flag.sets_iff, hnone]
      rw [if_neg hnot]
  · next hbehaviour =>
    have hnot : ¬ f.sets field = true := fun hsets => hbehaviour (Flag.sets_iff.mp hsets).1
    rw [if_neg hnot]

/-- Of the flags that set a behaviour option the last one counts. -/
theorem behaviour_withFlags {flags : List Flag} {field : Behaviour.Field}
    (h : ∀ f ∈ flags, f.sets field = true → field.Holds f.value) (p : Plan) :
    (p.withFlags flags).behaviour.get field =
      ((flags.filter (·.sets field)).getLast?.map Flag.value).getD (p.behaviour.get field) := by
  show (flags.foldl applyFlag p).behaviour.get field = _
  induction flags generalizing p with
  | nil => rfl
  | cons f rest ih =>
    rw [List.foldl_cons, ih fun g hg => h g (List.mem_cons_of_mem f hg),
      behaviour_applyFlag p f field (h f List.mem_cons_self)]
    by_cases hsets : f.sets field = true
    · rw [if_pos hsets, List.filter_cons_of_pos hsets, List.getLast?_cons]
      cases (rest.filter (·.sets field)).getLast? <;> rfl
    · rw [if_neg hsets, List.filter_cons_of_neg hsets]

end Plan

/-- What the flags of a sample can be.  Either they are found, or the value of an option is refused; it
does not come to another failure.  A flag that is found is what the name and the value of its line make
of it: a tag, whatever the schema says; an option of the schema with a value of its declared type; a
behaviour option with a value of its own type; or unknown.  So a behaviour option in effect has the
value that its last flag gives. -/
theorem Flag.findAll_typed (v : Vocabulary) (code : List Char) :
    (∀ e, findAll v code = .error e → e.IsInvalidValue) ∧
      ∀ flags, findAll v code = .ok flags →
        (∀ f ∈ flags, ∃ l ∈ Line.all code, ∃ name value,
          Directive.Gives l.text name value ∧ Typed v name value l.span f) ∧
        ∀ (p : Plan) (field : Behaviour.Field), (p.withFlags flags).behaviour.get field =
          ((flags.filter (·.sets field)).getLast?.map Flag.value).getD (p.behaviour.get field) := by
  refine ⟨failsOnly_findAll v code, fun flags h => ?_⟩
  have hall : ∀ f ∈ flags, ∃ l ∈ Line.all code, ∃ name value,
      Directive.Gives l.text name value ∧ Typed v name value l.span f := by
    intro f hf
    obtain ⟨⟨l, name, value⟩, hmem, hparse⟩ :=
      Outcome.exists_of_mem_mapM (readLines_of_findAll h) hf
    obtain ⟨hl, hgiven⟩ := Line.mem_select_iff.mp hmem
    have hgives := Directive.given?_eq_some_iff.mp hgiven
    exact ⟨l, hl, name, value, hgives, (yields_parse v name l.span hgives.isWritten).ok f hparse⟩
  refine ⟨hall, fun p field => p.behaviour_withFlags (fun f hf hsets => ?_)⟩
  obtain ⟨l, -, name, value, -, htyped⟩ := hall f hf
  exact htyped.holds hsets

/-- A tag that the schema declares too, a list, a list of codes and a number; and a number that is
switched on. -/
theorem Flag.findAll_typed_example :
    let v : Vocabulary := ⟨["strict"],
      [Schema.plain .boolean "strict", Schema.listOf Schema.libraryElement, Schema.plain .number "depth"]⟩
    let code := "// @strict\n// @LIB: es5, DOM\n// @noErrors: 7 1_0\n// @depth: 1e3\n".toList
    (∃ flags, findAll v code = .ok flags ∧
      flags.map (fun f => (f.kind, f.name)) =
        [(.tag, "strict"), (.compiler, "lib"), (.behaviour, "noErrors"), (.compiler, "depth")] ∧
      ∀ f ∈ flags, ∃ l ∈ Line.all code, ∃ name value,
        Directive.Gives l.text name value ∧ Typed v name value l.span f) ∧
    ∃ e, findAll v "// @depth\n".toList = .error e ∧ e.IsInvalidValue := by
  intro v code
  constructor
  · have hfound : ((findAll v code).toOption.map fun flags => flags.map fun f => (f.kind, f.name)) =
        some [(.tag, "strict"), (.compiler, "lib"), (.behaviour, "noErrors"), (.compiler, "depth")] := by
      decide +kernel
    obtain ⟨flags, hflags, hkinds⟩ := Outcome.exists_ok_of_toOption_map hfound
    exact ⟨flags, hflags, hkinds, ((findAll_typed v code).2 flags hflags).1⟩
  · have hnone : (findAll v "// @depth\n".toList).toOption.isSome = false := by decide +kernel
    cases hrun : findAll v "// @depth\n".toList with
    | ok flags =>
      rw [hrun] at hnone
      cases hnone
    | error e => exact ⟨e, rfl, (findAll_typed v _).1 e hrun⟩

end Marginalia
