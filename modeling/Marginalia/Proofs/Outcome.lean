import Marginalia.Decode.Fault

/-!
# Outcomes

What is known of the parts of a computation when the whole of it succeeds, and how the whole can
fail when it is known how its parts can.
-/

namespace Marginalia.Outcome
set_option autoImplicit false

variable {ε α β γ : Type}

theorem ok_bind (a : α) (f : α → Except ε β) : (Except.ok a >>= f) = f a := rfl

theorem bind_eq_ok {x : Except ε α} {f : α → Except ε β} {b : β} :
    (x >>= f) = .ok b ↔ ∃ a, x = .ok a ∧ f a = .ok b := by
  cases x with
  | ok a => simp [bind, Except.bind]
  | error e => simp [bind, Except.bind]

theorem bind_eq_error {x : Except ε α} {f : α → Except ε β} {e : ε} :
    (x >>= f) = .error e ↔ x = .error e ∨ ∃ a, x = .ok a ∧ f a = .error e := by
  cases x with
  | ok a => simp [bind, Except.bind]
  | error e' => simp [bind, Except.bind]

theorem map_eq_ok {x : Except ε α} {f : α → β} {b : β} :
    x.map f = .ok b ↔ ∃ a, x = .ok a ∧ f a = b := by
  cases x with
  | ok a => simp [Except.map]
  | error e => simp [Except.map]

theorem map_eq_error {x : Except ε α} {f : α → β} {e : ε} : x.map f = .error e ↔ x = .error e := by
  cases x with
  | ok a => simp [Except.map]
  | error e' => simp [Except.map]

theorem toOption_map (x : Except ε α) (f : α → β) : (x.map f).toOption = x.toOption.map f := by
  cases x with
  | ok a => rfl
  | error e => rfl

theorem eq_ok_of_toOption {x : Except ε α} {a : α} (h : x.toOption = some a) : x = .ok a := by
  cases x with
  | ok b => rw [Option.some.inj h]
  | error e => cases h

theorem exists_ok_of_toOption_map {x : Except ε α} {f : α → β} {b : β}
    (h : x.toOption.map f = some b) : ∃ a, x = .ok a ∧ f a = b := by
  obtain ⟨a, ha, hf⟩ := Option.map_eq_some_iff.mp h
  exact ⟨a, eq_ok_of_toOption ha, hf⟩

theorem mapM_congr {f g : α → Except ε β} {xs : List α} (h : ∀ x ∈ xs, f x = g x) :
    xs.mapM f = xs.mapM g := by
  induction xs with
  | nil => rfl
  | cons x xs ih =>
    rw [List.mapM_cons, List.mapM_cons, h x List.mem_cons_self,
      ih fun y hy => h y (List.mem_cons_of_mem x hy)]

theorem mapM_map {f : α → Except ε β} {g : β → γ} (xs : List α) :
    (xs.mapM fun x => (f x).map g) = (xs.mapM f).map (List.map g) := by
  induction xs with
  | nil => rfl
  | cons x xs ih =>
    rw [List.mapM_cons, List.mapM_cons, ih]
    cases f x with
    | error e => rfl
    | ok b =>
      cases xs.mapM f with
      | error e => rfl
      | ok bs => rfl

theorem mapM_cons_eq_ok {f : α → Except ε β} {x : α} {xs : List α} {ys : List β} :
    (x :: xs).mapM f = .ok ys ↔ ∃ b bs, f x = .ok b ∧ xs.mapM f = .ok bs ∧ ys = b :: bs := by
  rw [List.mapM_cons, bind_eq_ok]
  constructor
  · rintro ⟨b, hb, h⟩
    obtain ⟨bs, hbs, h⟩ := bind_eq_ok.mp h
    exact ⟨b, bs, hb, hbs, (Except.ok.inj h).symm⟩
  · rintro ⟨b, bs, hb, hbs, rfl⟩
    exact ⟨b, hb, bind_eq_ok.mpr ⟨bs, hbs, rfl⟩⟩

theorem exists_of_mem_mapM {f : α → Except ε β} {xs : List α} {ys : List β}
    (h : xs.mapM f = .ok ys) {y : β} (hy : y ∈ ys) : ∃ x ∈ xs, f x = .ok y := by
  induction xs generalizing ys with
  | nil =>
    rw [List.mapM_nil] at h
    rw [← Except.ok.inj h] at hy
    exact absurd hy List.not_mem_nil
  | cons x xs ih =>
    obtain ⟨b, bs, hb, hbs, rfl⟩ := mapM_cons_eq_ok.mp h
    rcases List.mem_cons.mp hy with rfl | hy
    · exact ⟨x, List.mem_cons_self, hb⟩
    · obtain ⟨x', hx', hfx⟩ := ih hbs hy
      exact ⟨x', List.mem_cons_of_mem x hx', hfx⟩

theorem exists_mem_of_mapM {f : α → Except ε β} {xs : List α} {ys : List β}
    (h : xs.mapM f = .ok ys) {x : α} (hx : x ∈ xs) : ∃ y ∈ ys, f x = .ok y := by
  induction xs generalizing ys with
  | nil => exact absurd hx List.not_mem_nil
  | cons first xs ih =>
    obtain ⟨b, bs, hb, hbs, rfl⟩ := mapM_cons_eq_ok.mp h
    rcases List.mem_cons.mp hx with rfl | hx
    · exact ⟨b, List.mem_cons_self, hb⟩
    · obtain ⟨y, hy, hfx⟩ := ih hbs hx
      exact ⟨y, List.mem_cons_of_mem b hy, hfx⟩

theorem mem_mapM_iff {f : α → Except ε β} {xs : List α} {ys : List β} (h : xs.mapM f = .ok ys)
    {y : β} : y ∈ ys ↔ ∃ x ∈ xs, f x = .ok y := by
  constructor
  · exact exists_of_mem_mapM h
  · rintro ⟨x, hx, hfx⟩
    obtain ⟨z, hz, hfz⟩ := exists_mem_of_mapM h hx
    rwa [Except.ok.inj (hfx.symm.trans hfz)]

theorem mapM_append_eq_ok {f : α → Except ε β} {xs ys : List α} {zs : List β} :
    (xs ++ ys).mapM f = .ok zs ↔
      ∃ as bs, xs.mapM f = .ok as ∧ ys.mapM f = .ok bs ∧ zs = as ++ bs := by
  rw [List.mapM_append, bind_eq_ok]
  constructor
  · rintro ⟨as, has, h⟩
    obtain ⟨bs, hbs, h⟩ := bind_eq_ok.mp h
    exact ⟨as, bs, has, hbs, (Except.ok.inj h).symm⟩
  · rintro ⟨as, bs, has, hbs, rfl⟩
    exact ⟨as, has, bind_eq_ok.mpr ⟨bs, hbs, rfl⟩⟩

theorem mapM_perm {f : α → Except ε β} {xs ys : List α} (h : xs.Perm ys) {as : List β}
    (has : xs.mapM f = .ok as) : ∃ bs, ys.mapM f = .ok bs ∧ as.Perm bs := by
  induction h generalizing as with
  | nil => exact ⟨as, has, .refl as⟩
  | cons x _ ih =>
    obtain ⟨a, rest, ha, hrest, rfl⟩ := mapM_cons_eq_ok.mp has
    obtain ⟨bs, hbs, hperm⟩ := ih hrest
    exact ⟨a :: bs, mapM_cons_eq_ok.mpr ⟨a, bs, ha, hbs, rfl⟩, hperm.cons a⟩
  | swap x y xs =>
    obtain ⟨b, _, hb, htail, rfl⟩ := mapM_cons_eq_ok.mp has
    obtain ⟨a, rest, ha, hrest, rfl⟩ := mapM_cons_eq_ok.mp htail
    refine ⟨a :: b :: rest, ?_, .swap a b rest⟩
    exact mapM_cons_eq_ok.mpr ⟨a, _, ha, mapM_cons_eq_ok.mpr ⟨b, rest, hb, hrest, rfl⟩, rfl⟩
  | trans _ _ ih ih' =>
    obtain ⟨bs, hbs, hperm⟩ := ih has
    obtain ⟨cs, hcs, hperm'⟩ := ih' hbs
    exact ⟨cs, hcs, hperm.trans hperm'⟩

theorem filterMap_flatten_of_mapM {f : α → Except ε (List β)} {g : β → Option γ} {k : α → List γ}
    {xs : List α} {ys : List (List β)} (h : xs.mapM f = .ok ys)
    (hk : ∀ x ∈ xs, ∀ y, f x = .ok y → y.filterMap g = k x) :
    ys.flatten.filterMap g = xs.flatMap k := by
  induction xs generalizing ys with
  | nil =>
    rw [List.mapM_nil] at h
    rw [← Except.ok.inj h]
    rfl
  | cons x xs ih =>
    obtain ⟨b, bs, hb, hbs, rfl⟩ := mapM_cons_eq_ok.mp h
    rw [List.flatten_cons, List.filterMap_append, List.flatMap_cons, hk x List.mem_cons_self b hb,
      ih hbs fun y hy => hk y (List.mem_cons_of_mem x hy)]

theorem filterMapM_of_ok {f : α → Except ε (Option β)} {g : α → Option β} {xs : List α}
    (h : ∀ x ∈ xs, f x = .ok (g x)) : xs.filterMapM f = .ok (xs.filterMap g) := by
  induction xs with
  | nil => rfl
  | cons x xs ih =>
    rw [List.filterMapM_cons, h x List.mem_cons_self, ok_bind,
      ih fun y hy => h y (List.mem_cons_of_mem x hy)]
    cases hx : g x with
    | none => rw [List.filterMap_cons_none hx]
    | some b =>
      rw [List.filterMap_cons_some hx]
      rfl

theorem exists_of_mem_filterMapM {f : α → Except ε (Option β)} {xs : List α} {ys : List β}
    (h : xs.filterMapM f = .ok ys) {y : β} (hy : y ∈ ys) : ∃ x ∈ xs, f x = .ok (some y) := by
  induction xs generalizing ys with
  | nil =>
    cases h
    exact absurd hy List.not_mem_nil
  | cons x xs ih =>
    rw [List.filterMapM_cons] at h
    obtain ⟨o, ho, h⟩ := bind_eq_ok.mp h
    cases o with
    | none =>
      obtain ⟨z, hz, hfz⟩ := ih h hy
      exact ⟨z, List.mem_cons_of_mem x hz, hfz⟩
    | some b =>
      obtain ⟨bs, hbs, h⟩ := bind_eq_ok.mp h
      obtain rfl : b :: bs = ys := Except.ok.inj h
      rcases List.mem_cons.mp hy with rfl | hy
      · exact ⟨x, List.mem_cons_self, ho⟩
      · obtain ⟨z, hz, hfz⟩ := ih hbs hy
        exact ⟨z, List.mem_cons_of_mem x hz, hfz⟩

def failure? : Except ε α → Option ε
  | .ok _ => none
  | .error e => some e

theorem failure?_eq_some {x : Except ε α} {e : ε} : failure? x = some e ↔ x = .error e := by
  cases x with
  | ok a => simp [failure?]
  | error e' => simp [failure?]

theorem failure?_map (x : Except ε α) (f : α → β) : failure? (x.map f) = failure? x := by
  cases x with
  | ok a => rfl
  | error e => rfl

/-- Steps fail like the first of them that does. -/
theorem failure?_mapM (f : α → Except ε β) (xs : List α) :
    failure? (xs.mapM f) = xs.findSome? fun x => failure? (f x) := by
  induction xs with
  | nil => rfl
  | cons x xs ih =>
    rw [List.mapM_cons, List.findSome?_cons, ← ih]
    cases f x with
    | error e => rfl
    | ok b => cases xs.mapM f <;> rfl

theorem failure?_filterMapM (f : α → Except ε (Option β)) (xs : List α) :
    failure? (xs.filterMapM f) = xs.findSome? fun x => failure? (f x) := by
  induction xs with
  | nil => rfl
  | cons x xs ih =>
    rw [List.filterMapM_cons, List.findSome?_cons, ← ih]
    cases f x with
    | error e => rfl
    | ok o =>
      cases o with
      | none => rfl
      | some b => cases xs.filterMapM f <;> rfl

variable {P : ε → Prop}

def FailsOnly (P : ε → Prop) (x : Except ε α) : Prop := ∀ e, x = .error e → P e

theorem failsOnly_ok (a : α) : FailsOnly P (.ok a) := by
  intro e h
  cases h

theorem failsOnly_error {e : ε} (h : P e) : FailsOnly P (.error e : Except ε α) := by
  rintro _ ⟨⟩
  exact h

theorem FailsOnly.bind {x : Except ε α} {f : α → Except ε β} (hx : FailsOnly P x)
    (hf : ∀ a, x = .ok a → FailsOnly P (f a)) : FailsOnly P (x >>= f) := by
  intro e h
  rcases bind_eq_error.mp h with h | ⟨a, ha, h⟩
  · exact hx e h
  · exact hf a ha e h

theorem FailsOnly.map {x : Except ε α} (hx : FailsOnly P x) (f : α → β) : FailsOnly P (x.map f) :=
  fun e h => hx e (map_eq_error.mp h)

theorem FailsOnly.mapM {f : α → Except ε β} {xs : List α} (h : ∀ x ∈ xs, FailsOnly P (f x)) :
    FailsOnly P (xs.mapM f) := by
  induction xs with
  | nil => exact failsOnly_ok []
  | cons x xs ih =>
    rw [List.mapM_cons]
    refine (h x List.mem_cons_self).bind fun b _ => ?_
    refine (ih fun y hy => h y (List.mem_cons_of_mem x hy)).bind fun bs _ => ?_
    exact failsOnly_ok (b :: bs)

theorem FailsOnly.filterMapM {f : α → Except ε (Option β)} {xs : List α}
    (h : ∀ x ∈ xs, FailsOnly P (f x)) : FailsOnly P (xs.filterMapM f) := by
  induction xs with
  | nil => exact failsOnly_ok []
  | cons x xs ih =>
    have hrest := ih fun y hy => h y (List.mem_cons_of_mem x hy)
    rw [List.filterMapM_cons]
    refine (h x List.mem_cons_self).bind fun o _ => ?_
    cases o with
    | none => exact hrest
    | some b => exact hrest.bind fun bs _ => failsOnly_ok (b :: bs)

theorem failsOnly_toExcept {wrap : List Fault → ε} (h : ∀ faults, P (wrap faults)) (x : Checked α) :
    FailsOnly P (x.toExcept wrap) := by
  match x with
  | .ok a => exact failsOnly_ok a
  | .error faults => exact failsOnly_error (h faults)

end Marginalia.Outcome

namespace Marginalia.Checked
set_option autoImplicit false

variable {α β : Type}

theorem seq_eq_ok {f : Checked (α → β)} {a : Checked α} {b : β} :
    f <*> a = (.ok b : Checked β) ↔ ∃ g x, f = .ok g ∧ a = .ok x ∧ g x = b := by
  constructor
  · intro h
    match f, a, h with
    | .ok g, .ok x, h => exact ⟨g, x, rfl, rfl, Except.ok.inj h⟩
  · rintro ⟨g, x, rfl, rfl, rfl⟩
    rfl

theorem map_eq_ok {g : α → β} {a : Checked α} {b : β} :
    g <$> a = (.ok b : Checked β) ↔ ∃ x, a = .ok x ∧ g x = b := by
  constructor
  · intro h
    match a, h with
    | .ok x, h => exact ⟨x, rfl, Except.ok.inj h⟩
  · rintro ⟨x, rfl, rfl⟩
    rfl

theorem under_eq_ok {segment : Segment} {a : Checked α} {x : α} :
    a.under segment = .ok x ↔ a = .ok x := by
  constructor
  · intro h
    match a, h with
    | .ok y, h => exact congrArg Except.ok (Except.ok.inj h)
  · rintro rfl
    rfl

theorem toExcept_eq_ok {ε : Type} {wrap : List Fault → ε} {a : Checked α} {x : α} :
    a.toExcept wrap = .ok x ↔ a = .ok x := by
  constructor
  · intro h
    match a, h with
    | .ok y, h => exact congrArg Except.ok (Except.ok.inj h)
  · rintro rfl
    rfl

end Marginalia.Checked
