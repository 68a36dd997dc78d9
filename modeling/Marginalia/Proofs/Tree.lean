import Mathlib.Data.List.Basic
import Marginalia.Proofs.Failing

/-!
# Identifiers of a tree

A node of a tree is named by its path from the root, the number of the child at every step.  The
identifiers of a tree are those of its topmost identifier nodes, in the order of their paths, which is
that in which a tree is gone through from the top and from the left.  Where a node begins and ends is
read off a table that has the index of its character for every byte of the text.
-/

namespace Marginalia
set_option autoImplicit false

/-! ## The table of a text -/

namespace Identifier

/-- The index of its character for every byte of a text whose first index is `i`, and the index behind
the text. -/
def tableFrom (i : Nat) : List Char → List Nat
  | [] => [i]
  | c :: rest => List.replicate c.utf8Size i ++ tableFrom (i + 1) rest

def byteTable (content : List Char) : List Nat := tableFrom 0 content

theorem length_encoded (content : List Char) :
    (Text.encoded content).length = byteCount content := by
  induction content with
  | nil => rfl
  | cons c rest ih =>
    have hcons : Text.encoded (c :: rest) = String.utf8EncodeChar c ++ Text.encoded rest := rfl
    rw [hcons, List.length_append, String.length_utf8EncodeChar, ih, byteCount]

theorem charIndexFrom?_eq (i byte : Nat) (content : List Char) :
    charIndexFrom? i byte content = (tableFrom i content)[byte]? := by
  induction content generalizing i byte with
  | nil => cases byte <;> rfl
  | cons c rest ih =>
    unfold charIndexFrom? tableFrom
    rw [List.getElem?_append, List.length_replicate, ih, List.getElem?_replicate]
    split <;> rfl

theorem le_of_tableFrom {i byte j : Nat} {content : List Char}
    (h : (tableFrom i content)[byte]? = some j) : i ≤ j := by
  induction content generalizing i byte with
  | nil =>
    obtain rfl := List.mem_singleton.mp (List.mem_of_getElem? h)
    exact Nat.le_refl _
  | cons c rest ih =>
    unfold tableFrom at h
    rw [List.getElem?_append] at h
    split at h
    · exact Nat.le_of_eq (List.mem_replicate.mp (List.mem_of_getElem? h)).2.symm
    · exact Nat.le_of_succ_le (ih h)

theorem tableFrom_mono {i byte later j k : Nat} {content : List Char}
    (hj : (tableFrom i content)[byte]? = some j) (hk : (tableFrom i content)[later]? = some k)
    (h : byte ≤ later) : j ≤ k := by
  induction content generalizing i byte later with
  | nil =>
    rw [List.mem_singleton.mp (List.mem_of_getElem? hj)]
    exact le_of_tableFrom hk
  | cons c rest ih =>
    have hfirst := le_of_tableFrom hk
    unfold tableFrom at hj hk
    rw [List.getElem?_append] at hj hk
    split at hj
    · rw [(List.mem_replicate.mp (List.mem_of_getElem? hj)).2]
      exact hfirst
    · next hbehind =>
      rw [if_neg (by omega)] at hk
      exact ih hj hk (by omega)

theorem tableFrom_boundary (i : Nat) {j : Nat} {content : List Char} (h : j ≤ content.length) :
    (tableFrom i content)[byteCount (content.take j)]? = some (i + j) := by
  induction content generalizing i j with
  | nil =>
    obtain rfl : j = 0 := Nat.le_zero.mp h
    rfl
  | cons c rest ih =>
    unfold tableFrom
    cases j with
    | zero =>
      rw [List.take_zero, List.getElem?_append, List.length_replicate, byteCount,
        if_pos c.utf8Size_pos, List.getElem?_replicate, if_pos c.utf8Size_pos]
      rfl
    | succ j =>
      rw [List.take_succ_cons, byteCount, List.getElem?_append, List.length_replicate,
        if_neg (Nat.not_lt.mpr (Nat.le_add_right _ _)), Nat.add_sub_cancel_left,
        ih (i + 1) (Nat.le_of_succ_le_succ h)]
      congr 1
      omega

theorem byteTable_of_ascii {content : List Char} (h : ∀ c ∈ content, c.toNat < 128) {byte : Nat}
    (hbyte : byte ≤ content.length) : (byteTable content)[byte]? = some byte := by
  have hentry := tableFrom_boundary 0 hbyte
  rwa [byteCount_of_ascii fun c hc => h c (List.mem_of_mem_take hc), List.length_take_of_le hbyte,
    Nat.zero_add] at hentry

theorem entry_of_charIndex {content : List Char} {byte i : Int} (h0 : 0 ≤ byte)
    (hle : byte ≤ byteCount content) (h : charIndex content byte = .ok i) :
    ∃ j : Nat, i = j ∧ (byteTable content)[byte.toNat]? = some j := by
  unfold charIndex at h
  split at h
  · next hascii =>
    have hchars : ∀ c ∈ content, c.toNat < 128 := by simpa using hascii
    rw [byteCount_of_ascii hchars] at hle
    cases h
    exact ⟨byte.toNat, (Int.toNat_of_nonneg h0).symm, byteTable_of_ascii hchars (by omega)⟩
  · rw [if_neg (Int.not_lt.mpr h0)] at h
    split at h
    · cases h
    · dsimp only at h
      rw [if_neg (Int.not_lt.mpr h0), charIndexFrom?_eq] at h
      split at h
      · next j hj =>
        cases h
        exact ⟨j, rfl, hj⟩
      · cases h

end Identifier

namespace Tree

def isIdentifier : Tree → Bool
  | node kind _ _ _ => identifierKinds.contains kind

def first : Tree → Int
  | node _ first _ _ => first

def last : Tree → Int
  | node _ _ last _ => last

def children : Tree → List Tree
  | node _ _ _ children => children

/-- The node at a path. -/
def at? : List Nat → Tree → Option Tree
  | [], t => some t
  | i :: path, t => t.children[i]?.bind (at? path)

/-- The node at the path is an identifier, and none above it is. -/
def Topmost (t : Tree) (path : List Nat) : Prop :=
  (∃ n, t.at? path = some n ∧ n.isIdentifier = true) ∧
    ∀ above, above <+: path → above ≠ path → ∀ n, t.at? above = some n → n.isIdentifier = false

/-- The identifier of a node, by the table of the text, if there is something between its bytes. -/
def mapped? (content : List Char) (t : Tree) : Option Identifier :=
  (Identifier.byteTable content)[t.first.toNat]?.bind fun start =>
    (Identifier.byteTable content)[t.last.toNat]?.bind fun stop =>
      if start < stop then some ⟨⟨start, stop⟩, (content.take stop).drop start⟩ else none

mutual

def topmost : Tree → List (List Nat)
  | node kind _ _ children =>
    if identifierKinds.contains kind then [[]] else topmostOfAll 0 children

def topmostOfAll (i : Nat) : List Tree → List (List Nat)
  | [] => []
  | t :: rest => (topmost t).map (i :: ·) ++ topmostOfAll (i + 1) rest

end

theorem topmost_nil_iff {t : Tree} : t.Topmost [] ↔ t.isIdentifier = true := by
  constructor
  · rintro ⟨⟨n, hn, hidentifier⟩, -⟩
    cases hn
    exact hidentifier
  · intro h
    refine ⟨⟨t, rfl, h⟩, fun above habove hne => ?_⟩
    exact absurd (List.prefix_nil.mp habove) hne

theorem at?_cons_eq_some_iff {t n : Tree} {i : Nat} {path : List Nat} :
    t.at? (i :: path) = some n ↔ ∃ c, t.children[i]? = some c ∧ c.at? path = some n :=
  Option.bind_eq_some_iff

theorem topmost_cons_iff {t : Tree} {i : Nat} {path : List Nat} :
    t.Topmost (i :: path) ↔
      t.isIdentifier = false ∧ ∃ c, t.children[i]? = some c ∧ c.Topmost path := by
  constructor
  · rintro ⟨⟨n, hn, hidentifier⟩, habove⟩
    obtain ⟨c, hc, hn⟩ := at?_cons_eq_some_iff.mp hn
    refine ⟨habove [] List.nil_prefix nofun t rfl, c, hc, ⟨n, hn, hidentifier⟩, ?_⟩
    intro above hprefix hne m hm
    refine habove (i :: above) (List.cons_prefix_cons.mpr ⟨rfl, hprefix⟩) ?_ m
      (at?_cons_eq_some_iff.mpr ⟨c, hc, hm⟩)
    exact fun heq => hne (List.cons.inj heq).2
  · rintro ⟨hroot, c, hc, ⟨n, hn, hidentifier⟩, habove⟩
    refine ⟨⟨n, at?_cons_eq_some_iff.mpr ⟨c, hc, hn⟩, hidentifier⟩, ?_⟩
    intro above hprefix hne m hm
    rcases List.prefix_cons_iff.mp hprefix with rfl | ⟨rest, rfl, hrest⟩
    · cases hm
      exact hroot
    · obtain ⟨c', hc', hm⟩ := at?_cons_eq_some_iff.mp hm
      obtain rfl : c' = c := Option.some.inj (hc'.symm.trans hc)
      exact habove rest hrest (fun heq => hne (heq ▸ rfl)) m hm

/-! ## The paths of the topmost identifiers -/

mutual

theorem mem_topmost_iff {t : Tree} {path : List Nat} : path ∈ t.topmost ↔ t.Topmost path := by
  cases t with
  | node kind first last children =>
    unfold topmost
    split
    · next hkind =>
      cases path with
      | nil => exact iff_of_true (List.mem_singleton_self _) (topmost_nil_iff.mpr hkind)
      | cons i path =>
        refine iff_of_false (by simp) fun h => ?_
        exact absurd hkind (Bool.eq_false_iff.mp (topmost_cons_iff.mp h).1)
    · next hkind =>
      rw [mem_topmostOfAll_iff]
      cases path with
      | nil => exact iff_of_false (by simp) fun h => hkind (topmost_nil_iff.mp h)
      | cons i path =>
        rw [topmost_cons_iff]
        constructor
        · rintro ⟨k, c, rest, hc, hrest, heq⟩
          obtain ⟨rfl, rfl⟩ := List.cons.inj heq
          rw [Nat.zero_add]
          exact ⟨Bool.eq_false_iff.mpr hkind, c, hc, hrest⟩
        · rintro ⟨-, c, hc, hrest⟩
          exact ⟨i, c, path, hc, hrest, by rw [Nat.zero_add]⟩

theorem mem_topmostOfAll_iff {i : Nat} {ts : List Tree} {path : List Nat} :
    path ∈ topmostOfAll i ts ↔
      ∃ k c rest, ts[k]? = some c ∧ c.Topmost rest ∧ path = (i + k) :: rest := by
  cases ts with
  | nil => simp [topmostOfAll]
  | cons t ts =>
    unfold topmostOfAll
    rw [List.mem_append, List.mem_map, mem_topmostOfAll_iff]
    constructor
    · rintro (⟨rest, hrest, rfl⟩ | ⟨k, c, rest, hc, hrest, rfl⟩)
      · exact ⟨0, t, rest, rfl, mem_topmost_iff.mp hrest, rfl⟩
      · exact ⟨k + 1, c, rest, hc, hrest, by rw [Nat.add_right_comm, Nat.add_assoc]⟩
    · rintro ⟨k, c, rest, hc, hrest, rfl⟩
      cases k with
      | zero =>
        obtain rfl : t = c := Option.some.inj hc
        exact Or.inl ⟨rest, mem_topmost_iff.mpr hrest, rfl⟩
      | succ k => exact Or.inr ⟨k, c, rest, hc, hrest, by rw [Nat.add_right_comm, Nat.add_assoc]⟩

end

mutual

theorem pairwise_topmost (t : Tree) : t.topmost.Pairwise (· < ·) := by
  cases t with
  | node kind first last children =>
    unfold topmost
    split
    · exact List.pairwise_singleton _ _
    · exact pairwise_topmostOfAll 0 children

theorem pairwise_topmostOfAll (i : Nat) (ts : List Tree) : (topmostOfAll i ts).Pairwise (· < ·) := by
  cases ts with
  | nil => exact .nil
  | cons t ts =>
    unfold topmostOfAll
    refine List.pairwise_append.mpr ⟨?_, pairwise_topmostOfAll (i + 1) ts, ?_⟩
    · exact (pairwise_topmost t).map _ fun p q hlt => List.cons_lt_cons_iff.mpr (Or.inr ⟨rfl, hlt⟩)
    · intro p hp q hq
      obtain ⟨p, -, rfl⟩ := List.mem_map.mp hp
      obtain ⟨k, c, q, -, -, rfl⟩ := mem_topmostOfAll_iff.mp hq
      exact List.cons_lt_cons_iff.mpr (Or.inl (by omega))

end

/-! ## The identifiers at these paths -/

theorem within_of_mem {content : List Char} {ts : List Tree} (h : AllWithin content ts) {t : Tree}
    (ht : t ∈ ts) : t.Within content := by
  induction ts with
  | nil => exact absurd ht List.not_mem_nil
  | cons c ts ih =>
    simp only [AllWithin] at h
    rcases List.mem_cons.mp ht with rfl | ht
    · exact h.1
    · exact ih h.2 ht

theorem Within.at {content : List Char} {t n : Tree} (h : t.Within content) {path : List Nat}
    (hn : t.at? path = some n) : n.Within content := by
  induction path generalizing t with
  | nil =>
    cases hn
    exact h
  | cons i path ih =>
    obtain ⟨c, hc, hn⟩ := at?_cons_eq_some_iff.mp hn
    refine ih ?_ hn
    cases t with
    | node kind first last children =>
      simp only [Within] at h
      exact within_of_mem h.2.2 (List.mem_of_getElem? hc)

theorem Within.bounds {content : List Char} {t : Tree} (h : t.Within content) :
    (0 ≤ t.first ∧ t.first ≤ Identifier.byteCount content) ∧
      (0 ≤ t.last ∧ t.last ≤ Identifier.byteCount content) := by
  cases t with
  | node kind first last children =>
    simp only [Within] at h
    exact ⟨h.1, h.2.1⟩

theorem atBytes_eq {content : List Char} {t : Tree} (h : t.Within content) {xs : List Identifier}
    (hxs : Identifier.atBytes content t.first t.last = .ok xs) : xs = (t.mapped? content).toList := by
  obtain ⟨hfirst, hlast⟩ := h.bounds
  obtain ⟨start, hstart, hxs⟩ := Outcome.bind_eq_ok.mp hxs
  obtain ⟨stop, hstop, rfl⟩ := Outcome.map_eq_ok.mp hxs
  obtain ⟨j, rfl, hj⟩ := Identifier.entry_of_charIndex hfirst.1 hfirst.2 hstart
  obtain ⟨k, rfl, hk⟩ := Identifier.entry_of_charIndex hlast.1 hlast.2 hstop
  unfold mapped?
  rw [hj, Option.bind_some, hk, Option.bind_some,
    Text.between_of_nonneg (Int.natCast_nonneg j) (Int.natCast_nonneg k)]
  by_cases hlt : j < k
  · rw [if_pos hlt, if_pos (Int.ofNat_lt.mpr hlt)]
    rfl
  · rw [if_neg hlt, if_neg fun hint => hlt (Int.ofNat_lt.mp hint)]
    rfl

mutual

theorem preorder_eq {content : List Char} {t : Tree} (h : t.Within content)
    {xs : List Identifier} (hxs : t.preorder content = .ok xs) :
    xs = t.topmost.filterMap fun path => (t.at? path).bind (mapped? content) := by
  cases t with
  | node kind first last children =>
    unfold preorder at hxs
    unfold topmost
    split at hxs
    · next hkind =>
      rw [if_pos hkind, atBytes_eq h hxs, List.filterMap_cons]
      dsimp only [at?, Option.bind_some]
      cases mapped? content (node kind first last children) <;> rfl
    · next hkind =>
      rw [if_neg hkind]
      simp only [Within] at h
      exact preorderOfAll_eq kind first last [] h.2.2 hxs

theorem preorderOfAll_eq (kind : String) (first last : Int) (done : List Tree)
    {content : List Char} {ts : List Tree} (h : AllWithin content ts) {xs : List Identifier}
    (hxs : preorderOfAll content ts = .ok xs) :
    xs = (topmostOfAll done.length ts).filterMap fun path =>
      ((node kind first last (done ++ ts)).at? path).bind (mapped? content) := by
  cases ts with
  | nil =>
    cases hxs
    rfl
  | cons t ts =>
    simp only [AllWithin] at h
    unfold preorderOfAll at hxs
    split at hxs
    · cases hxs
    · next ys hys =>
      obtain ⟨zs, hzs, rfl⟩ := Outcome.map_eq_ok.mp hxs
      have hchild : ∀ path, (node kind first last (done ++ t :: ts)).at? (done.length :: path) =
          t.at? path := by
        intro path
        have hget : (done ++ t :: ts)[done.length]? = some t := by simp
        exact congrArg (Option.bind · (at? path)) hget
      have hlater := preorderOfAll_eq kind first last (done ++ [t]) h.2 hzs
      rw [List.length_append, List.length_singleton, List.append_assoc] at hlater
      unfold topmostOfAll
      rw [List.filterMap_append, List.filterMap_map, preorder_eq h.1 hys, hlater]
      congr 1
      refine List.filterMap_congr fun path _ => ?_
      rw [Function.comp_apply, hchild]

end

theorem mapped?_eq_some {content : List Char} {n : Tree} {x : Identifier}
    (h : n.mapped? content = some x) :
    ∃ j k, (Identifier.byteTable content)[n.first.toNat]? = some j ∧
      (Identifier.byteTable content)[n.last.toNat]? = some k ∧ j < k ∧
      x = ⟨⟨j, k⟩, (content.take k).drop j⟩ := by
  obtain ⟨j, hj, h⟩ := Option.bind_eq_some_iff.mp h
  obtain ⟨k, hk, h⟩ := Option.bind_eq_some_iff.mp h
  split at h
  · next hlt => exact ⟨j, k, hj, hk, hlt, (Option.some.inj h).symm⟩
  · cases h

theorem length_of_mapped {content : List Char} {n : Tree} {x : Identifier}
    (h : n.mapped? content = some x) :
    x.span.start < x.span.stop ∧ x.span.stop - x.span.start = x.text.length := by
  obtain ⟨j, k, -, hk, hlt, rfl⟩ := mapped?_eq_some h
  rw [Identifier.byteTable, ← Identifier.charIndexFrom?_eq] at hk
  have hstop := Identifier.charIndexFrom?_le hk
  dsimp only
  rw [List.length_drop, List.length_take]
  omega

/-- Between two bounds of characters, the identifier of a node has the bytes of the node. -/
theorem encoded_of_mapped {content : List Char} {n : Tree} {x : Identifier}
    (h : n.mapped? content = some x) {j k : Nat} (hj : j ≤ content.length) (hk : k ≤ content.length)
    (hfirst : n.first = Identifier.byteCount (content.take j))
    (hlast : n.last = Identifier.byteCount (content.take k)) :
    Text.encoded x.text =
      ((Text.encoded content).take n.last.toNat).drop n.first.toNat := by
  obtain ⟨j', k', hj', hk', hlt, rfl⟩ := mapped?_eq_some h
  rw [hfirst, Int.toNat_natCast, Identifier.byteTable, Identifier.tableFrom_boundary 0 hj,
    Nat.zero_add] at hj'
  rw [hlast, Int.toNat_natCast, Identifier.byteTable, Identifier.tableFrom_boundary 0 hk,
    Nat.zero_add] at hk'
  cases hj'
  cases hk'
  have hupTo : Text.encoded content =
      Text.encoded (content.take k) ++ Text.encoded (content.drop k) := by
    rw [← Text.encoded_append, List.take_append_drop]
  have hfrom : Text.encoded (content.take k) =
      Text.encoded (content.take j) ++ Text.encoded ((content.take k).drop j) := by
    rw [← Text.encoded_append]
    congr 1
    have htake : content.take j = (content.take k).take j := by
      rw [List.take_take, Nat.min_eq_left (Nat.le_of_lt hlt)]
    rw [htake, List.take_append_drop]
  rw [hfirst, hlast, Int.toNat_natCast, Int.toNat_natCast, ← Identifier.length_encoded,
    ← Identifier.length_encoded, hupTo, List.take_left, hfrom, List.drop_left]

/-! ## Trees in order -/

mutual

/-- At every node the children follow one another and keep within the node. -/
def Ordered : Tree → Prop
  | node _ first last children =>
    children.Pairwise (fun a b => a.last ≤ b.first) ∧
      (∀ c ∈ children, first ≤ c.first ∧ c.last ≤ last) ∧ AllOrdered children

def AllOrdered : List Tree → Prop
  | [] => True
  | t :: rest => t.Ordered ∧ AllOrdered rest

end

theorem ordered_of_mem {ts : List Tree} (h : AllOrdered ts) {t : Tree} (ht : t ∈ ts) :
    t.Ordered := by
  induction ts with
  | nil => exact absurd ht List.not_mem_nil
  | cons c ts ih =>
    simp only [AllOrdered] at h
    rcases List.mem_cons.mp ht with rfl | ht
    · exact h.1
    · exact ih h.2 ht

theorem Ordered.children {t : Tree} (h : t.Ordered) :
    t.children.Pairwise (fun a b => a.last ≤ b.first) ∧
      ∀ c ∈ t.children, t.first ≤ c.first ∧ c.last ≤ t.last ∧ c.Ordered := by
  cases t with
  | node kind first last children =>
    simp only [Ordered] at h
    exact ⟨h.1, fun c hc => ⟨(h.2.1 c hc).1, (h.2.1 c hc).2, ordered_of_mem h.2.2 hc⟩⟩

theorem Ordered.bounds_at {t n : Tree} (h : t.Ordered) {path : List Nat} (hn : t.at? path = some n) :
    t.first ≤ n.first ∧ n.last ≤ t.last := by
  induction path generalizing t with
  | nil =>
    cases hn
    exact ⟨Int.le_refl _, Int.le_refl _⟩
  | cons i path ih =>
    obtain ⟨c, hc, hn⟩ := at?_cons_eq_some_iff.mp hn
    obtain ⟨hfirst, hlast, hordered⟩ := h.children.2 c (List.mem_of_getElem? hc)
    obtain ⟨hbegin, hend⟩ := ih hordered hn
    exact ⟨Int.le_trans hfirst hbegin, Int.le_trans hend hlast⟩

theorem Ordered.last_le_first {t n m : Tree} (h : t.Ordered) {p q : List Nat} (hlt : p < q)
    (hbeside : ¬ p <+: q) (hn : t.at? p = some n) (hm : t.at? q = some m) : n.last ≤ m.first := by
  induction p generalizing t q with
  | nil => exact absurd List.nil_prefix hbeside
  | cons i p ih =>
    cases q with
    | nil => exact absurd hlt (List.not_lt_nil _)
    | cons j q =>
      obtain ⟨c, hc, hn⟩ := at?_cons_eq_some_iff.mp hn
      obtain ⟨d, hd, hm⟩ := at?_cons_eq_some_iff.mp hm
      obtain ⟨hpairwise, hall⟩ := h.children
      obtain ⟨-, -, hc'⟩ := hall c (List.mem_of_getElem? hc)
      obtain ⟨-, -, hd'⟩ := hall d (List.mem_of_getElem? hd)
      rcases List.cons_lt_cons_iff.mp hlt with hij | ⟨rfl, hrest⟩
      · obtain ⟨hi, rfl⟩ := List.getElem?_eq_some_iff.mp hc
        obtain ⟨hj, rfl⟩ := List.getElem?_eq_some_iff.mp hd
        have hsiblings := List.pairwise_iff_getElem.mp hpairwise i j hi hj hij
        have := (hc'.bounds_at hn).2
        have := (hd'.bounds_at hm).1
        omega
      · obtain rfl : c = d := Option.some.inj (hc.symm.trans hd)
        exact ih hc' hrest (fun hp => hbeside (List.cons_prefix_cons.mpr ⟨rfl, hp⟩)) hn hm

theorem Topmost.not_prefix {t : Tree} {p q : List Nat} (hp : t.Topmost p) (hq : t.Topmost q)
    (hne : p ≠ q) : ¬ p <+: q := by
  intro hprefix
  obtain ⟨⟨n, hn, hidentifier⟩, -⟩ := hp
  exact absurd hidentifier (Bool.eq_false_iff.mp (hq.2 p hprefix hne n hn))

/-- The identifiers of a tree in order follow one another. -/
theorem Ordered.pairwise_mapped {content : List Char} {t : Tree} (h : t.Ordered)
    (hwithin : t.Within content) :
    (t.topmost.filterMap fun path => (t.at? path).bind (mapped? content)).Pairwise fun x y =>
      x.span.stop ≤ y.span.start := by
  refine List.pairwise_filterMap.mpr ((pairwise_topmost t).imp_of_mem ?_)
  intro p q hp hq hlt x hx y hy
  obtain ⟨n, hn, hx⟩ := Option.bind_eq_some_iff.mp hx
  obtain ⟨m, hm, hy⟩ := Option.bind_eq_some_iff.mp hy
  -- Neither of the two nodes is below the other, since both are topmost.
  have hne : p ≠ q := by
    rintro rfl
    exact List.lt_irrefl p hlt
  have hbeside := Topmost.not_prefix (mem_topmost_iff.mp hp) (mem_topmost_iff.mp hq) hne
  have hbytes := h.last_le_first hlt hbeside hn hm
  obtain ⟨-, k, -, hk, -, rfl⟩ := mapped?_eq_some hx
  obtain ⟨j, -, hj, -, -, rfl⟩ := mapped?_eq_some hy
  have hstop := (hwithin.at hn).bounds.2
  exact Int.ofNat_le.mpr (Identifier.tableFrom_mono hk hj (by omega))

end Tree

/-- The identifiers that are read off a tree: those of its topmost identifier nodes, in the order of
their paths, as far as there is something between their bytes.  Where these are found is read off the
table of the text, also for a text of ASCII characters, which needs none.  If the bytes of a node
begin and end with characters, its identifier has just these bytes.  The identifiers of a tree in order
follow one another.  The bytes of the text are taken to be numbered by words, as those of a text that is
held in memory are. -/
theorem World.identifiers_topmost (w : World) (content : List Char) (extension : String) (offset : Int)
    (t : Tree) (rest : List Tree) (hgrammar : (Language.grammar? extension).isSome = true)
    (htrees : w.trees = some (t :: rest)) (hwithin : t.Within content)
    (hword : Number.fitsWord (Identifier.byteCount content) = true) :
    ∃ (paths : List (List Nat)) (xs : List Identifier),
      paths.Pairwise (· < ·) ∧ (∀ path, path ∈ paths ↔ t.Topmost path) ∧
      (w.identifiers content extension).1.map (List.map (Identifier.shift offset)) = .ok xs ∧
      xs = (paths.filterMap fun path => (t.at? path).bind (Tree.mapped? content)).map
        (Identifier.shift offset) ∧
      (∀ path ∈ paths, ∀ n x, t.at? path = some n → n.mapped? content = some x →
        x.span.stop - x.span.start = x.text.length ∧
        ∀ j k, j ≤ content.length → k ≤ content.length →
          n.first = Identifier.byteCount (content.take j) →
          n.last = Identifier.byteCount (content.take k) →
          Text.encoded x.text =
            ((Text.encoded content).take n.last.toNat).drop n.first.toNat) ∧
      (∀ x ∈ xs, x.span.start < x.span.stop) ∧
      (t.Ordered → xs.Pairwise fun x y => x.span.stop ≤ y.span.start) ∧
      ((∀ c ∈ content, c.toNat < 128) → ∀ byte ≤ content.length,
        (Identifier.byteTable content)[byte]? = some byte) := by
  obtain ⟨xs, hxs⟩ := Tree.exists_preorder hword hwithin
  have hspans := Tree.preorder_eq hwithin hxs
  have hresult : (w.identifiers content extension).1 = .ok xs := by
    obtain ⟨grammar, hgrammar⟩ := Option.isSome_iff_exists.mp hgrammar
    unfold identifiers
    rw [hgrammar, htrees]
    dsimp only
    rw [Tree.identifiers_eq_preorder, hxs]
    rfl
  refine ⟨t.topmost, xs.map (Identifier.shift offset), t.pairwise_topmost,
    fun path => Tree.mem_topmost_iff, ?_, ?_, ?_, ?_, ?_, ?_⟩
  · rw [hresult]
    rfl
  · rw [hspans]
  · intro path _ n x _ hx
    exact ⟨(Tree.length_of_mapped hx).2, fun j k hj hk => Tree.encoded_of_mapped hx hj hk⟩
  · intro y hy
    obtain ⟨x, hx, rfl⟩ := List.mem_map.mp hy
    rw [hspans] at hx
    obtain ⟨path, -, hx⟩ := List.mem_filterMap.mp hx
    obtain ⟨n, -, hx⟩ := Option.bind_eq_some_iff.mp hx
    exact Int.add_lt_add_right (Tree.length_of_mapped hx).1 offset
  · intro hordered
    have hpairwise := hordered.pairwise_mapped hwithin
    rw [← hspans] at hpairwise
    exact hpairwise.map _ fun x y hxy => Int.add_le_add_right hxy offset
  · exact fun hascii byte hbyte => Identifier.byteTable_of_ascii hascii hbyte

/-- Characters of one to four bytes, an identifier within another and one without a text. -/
theorem World.identifiers_topmost_example :
    let content := "é€ = 𝒳b".toList
    let t : Tree := .node "program" 0 13 [.node "identifier" 0 5 [], .node "identifier" 7 7 [],
      .node "pair" 8 13 [.node "property_identifier" 8 13 [.node "identifier" 8 12 []]]]
    let w : World := { trees := some [t] }
    ∃ (paths : List (List Nat)) (xs : List Identifier),
      (Language.grammar? "ts").isSome = true ∧ t.Within content ∧
      Number.fitsWord (Identifier.byteCount content) = true ∧ t.Ordered ∧
      paths.Pairwise (· < ·) ∧ (∀ path, path ∈ paths ↔ t.Topmost path) ∧
      (w.identifiers content "ts").1.map (List.map (Identifier.shift 10)) = .ok xs ∧
      xs = [⟨⟨10, 12⟩, "é€".toList⟩, ⟨⟨15, 17⟩, "𝒳b".toList⟩] ∧
      xs.Pairwise fun x y => x.span.stop ≤ y.span.start := by
  intro content t w
  have hwithin : t.Within content := by
    simp only [t, Tree.Within, Tree.AllWithin]
    decide
  have hordered : t.Ordered := by
    simp only [t, Tree.Ordered, Tree.AllOrdered]
    decide
  have hrun : ((w.identifiers content "ts").1.map (List.map (Identifier.shift 10))).toOption =
      some [⟨⟨10, 12⟩, "é€".toList⟩, ⟨⟨15, 17⟩, "𝒳b".toList⟩] := by
    decide +kernel
  obtain ⟨paths, xs, hpaths, htopmost, hxs, -, -, -, hsorted, -⟩ :=
    identifiers_topmost w content "ts" 10 t [] (by decide) rfl hwithin (by decide)
  rw [hxs] at hrun
  exact ⟨paths, xs, by decide, hwithin, by decide, hordered, hpaths, htopmost, hxs,
    Option.some.inj hrun, hsorted hordered⟩

end Marginalia
