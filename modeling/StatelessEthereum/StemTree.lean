import Mathlib.Data.List.Infix
import Mathlib.Logic.Function.Basic

/- Trees that keep the values of one stem together, as finite maps from a stem
   and a slot. Two groups with different stems hang below one inner node for
   each digit their stems share and one for the digit at which they part. -/
namespace StemTree
set_option linter.unusedSectionVars false
variable {ι κ V : Type} [DecidableEq ι] [DecidableEq κ]

inductive Tree (ι κ V : Type) where
  | empty : Tree ι κ V
  | group : List ι → (κ → Option V) → Tree ι κ V
  | inner : (ι → Tree ι κ V) → Tree ι κ V

def bare : ι → Tree ι κ V := fun _ => .empty

def single (x : κ) (v : V) : κ → Option V := Function.update (fun _ => none) x (some v)

/-- An older group, and a new one whose stem is another of the same length. -/
def part (slots slots' : κ → Option V) : List ι → List ι → Tree ι κ V
  | i :: p, j :: q =>
    if i = j then .inner (Function.update bare i (part slots slots' p q))
    else .inner (Function.update (Function.update bare i (.group p slots)) j (.group q slots'))
  | _, _ => .empty

/-- One bare inner node below the other along a path. -/
def nest : List ι → Tree ι κ V → Tree ι κ V
  | [], t => t
  | i :: p, t => .inner (Function.update bare i (nest p t))

def lookup : Tree ι κ V → List ι → κ → Option V
  | .empty, _, _ => none
  | .group p slots, k, x => if k = p then slots x else none
  | .inner _, [], _ => none
  | .inner kids, i :: k, x => lookup (kids i) k x

def insert : Tree ι κ V → List ι → κ → V → Tree ι κ V
  | .empty, k, x, v => .group k (single x v)
  | .group p slots, k, x, v =>
    if p = k then .group p (Function.update slots x (some v))
    else part slots (single x v) p k
  | .inner kids, [], _, _ => .inner kids
  | .inner kids, i :: k, x, v => .inner (Function.update kids i (insert (kids i) k x v))

/-- Every group lies as deep as its keys have digits. -/
def Fits : Tree ι κ V → Nat → Prop
  | .empty, _ => True
  | .group p _, n => p.length = n
  | .inner kids, n => ∃ m, n = m + 1 ∧ ∀ i, Fits (kids i) m

def IsInner : Tree ι κ V → Prop
  | .inner _ => True
  | _ => False

/-- Two children, or one that is an inner node: what only two stems can cause. -/
def Crowded (kids : ι → Tree ι κ V) : Prop :=
  (∃ i j, i ≠ j ∧ kids i ≠ .empty ∧ kids j ≠ .empty) ∨ ∃ i, IsInner (kids i)

def Canonical : Tree ι κ V → Prop
  | .empty => True
  | .group _ slots => ∃ x, slots x ≠ none
  | .inner kids => (∀ i, Canonical (kids i)) ∧ Crowded kids

/-- A tree with an inner node at the top, which may be as bare as it likes. -/
structure Rooted (kids : ι → Tree ι κ V) (depth : Nat) : Prop where
  canonical : ∀ i, Canonical (kids i)
  fits : ∀ i, Fits (kids i) depth

/- Lookups. -/

theorem single_apply (x y : κ) (v : V) : single x v y = if y = x then some v else none := by
  unfold single
  rw [Function.update_apply]

/-- Two stems of one length share a path and part at one digit. -/
theorem part_nest (slots slots' : κ → Option V) {p q : List ι} (lengths : p.length = q.length)
    (apart : p ≠ q) : ∃ shared i p' j q', p = shared ++ i :: p' ∧ q = shared ++ j :: q' ∧ i ≠ j ∧
      part slots slots' p q = nest shared
        (.inner (Function.update (Function.update bare i (.group p' slots)) j (.group q' slots'))) := by
  induction p generalizing q with
  | nil => cases q <;> simp_all
  | cons i p ih =>
    cases q with
    | nil => simp at lengths
    | cons j q =>
      simp only [List.length_cons, Nat.add_right_cancel_iff] at lengths
      by_cases same : i = j
      · subst same
        obtain ⟨shared, a, p', b, q', rfl, rfl, differ, equal⟩ :=
          ih lengths fun equal => apart (by rw [equal])
        exact ⟨i :: shared, a, p', b, q', rfl, rfl, differ, by simp [part, nest, equal]⟩
      · exact ⟨[], i, p, j, q, rfl, rfl, same, by simp [part, nest, same]⟩

theorem lookup_part {slots slots' : κ → Option V} {p q : List ι} (lengths : p.length = q.length)
    (apart : p ≠ q) (k : List ι) (x : κ) :
    lookup (part slots slots' p q) k x =
      if k = p then slots x else if k = q then slots' x else none := by
  induction p generalizing q k with
  | nil =>
    cases q with
    | nil => exact absurd rfl apart
    | cons j q => simp at lengths
  | cons i p ih =>
    cases q with
    | nil => simp at lengths
    | cons j q =>
      simp only [List.length_cons, Nat.add_right_cancel_iff] at lengths
      cases k with
      | nil => by_cases same : i = j <;> simp [part, lookup, same]
      | cons a k =>
        by_cases same : i = j
        · subst same
          have below := ih lengths (fun equal => apart (by rw [equal])) k
          by_cases here : a = i
          · subst here; simp [part, lookup, below]
          · simp [part, lookup, here, bare]
        · by_cases new : a = j
          · subst new; simp [part, lookup, same, Ne.symm same]
          · by_cases old : a = i
            · subst old; simp [part, lookup, same]
            · simp [part, lookup, same, new, old, bare]

theorem lookup_insert {t : Tree ι κ V} {k : List ι} (fits : Fits t k.length) (x : κ) (v : V)
    (key : List ι) (y : κ) : lookup (insert t k x v) key y =
      if key = k ∧ y = x then some v else lookup t key y := by
  induction t generalizing k key with
  | empty => simp [insert, lookup, single_apply, ite_and]
  | group p slots =>
    by_cases same : p = k
    · subst same
      by_cases here : key = p
      · simp [insert, lookup, here, Function.update_apply]
      · simp [insert, lookup, here]
    · simp only [insert, same, ↓reduceIte, lookup]
      rw [lookup_part fits same]
      by_cases old : key = p
      · subst old; simp [same]
      · simp [old, single_apply, ite_and]
  | inner kids ih =>
    obtain ⟨m, size, below⟩ := fits
    cases k with
    | nil => simp at size
    | cons i k =>
      simp only [List.length_cons, Nat.add_right_cancel_iff] at size
      cases key with
      | nil => simp [insert, lookup]
      | cons j key =>
        by_cases here : j = i
        · subst here
          simp [insert, lookup, ih j (size ▸ below j)]
        · simp [insert, lookup, here]

/- Depth. -/

theorem part_fits {slots slots' : κ → Option V} {p q : List ι} (lengths : p.length = q.length) :
    Fits (part slots slots' p q) p.length := by
  induction p generalizing q with
  | nil => cases q <;> trivial
  | cons i p ih =>
    cases q with
    | nil => simp at lengths
    | cons j q =>
      simp only [List.length_cons, Nat.add_right_cancel_iff] at lengths
      by_cases same : i = j
      · simp only [part, same, ↓reduceIte]
        refine ⟨p.length, rfl, fun a => ?_⟩
        by_cases here : a = j
        · subst here; simpa using ih lengths
        · simp [here, bare, Fits]
      · simp only [part, same, ↓reduceIte]
        refine ⟨p.length, rfl, fun a => ?_⟩
        by_cases new : a = j
        · subst new; simp [Fits, lengths]
        · by_cases old : a = i
          · subst old; simp [new, Fits]
          · simp [new, old, bare, Fits]

theorem insert_fits {t : Tree ι κ V} {k : List ι} (fits : Fits t k.length) (x : κ) (v : V) :
    Fits (insert t k x v) k.length := by
  induction t generalizing k with
  | empty => simp [insert, Fits]
  | group p slots =>
    simp only [insert]
    split
    · exact fits
    · have lengths : p.length = k.length := fits
      rw [← lengths]
      exact part_fits lengths
  | inner kids ih =>
    obtain ⟨m, size, below⟩ := fits
    cases k with
    | nil => simp at size
    | cons i k =>
      simp only [List.length_cons, Nat.add_right_cancel_iff] at size
      refine ⟨k.length, rfl, fun j => ?_⟩
      by_cases here : j = i
      · subst here; simpa using ih j (size ▸ below j)
      · simpa [here, size] using below j

/- Canonical form. -/

theorem single_occupied (x : κ) (v : V) : ∃ y, single x v y ≠ none := ⟨x, by simp [single]⟩

theorem insert_ne_empty {t : Tree ι κ V} {k : List ι} (fits : Fits t k.length) (x : κ) (v : V) :
    insert t k x v ≠ .empty := by
  cases t with
  | empty => simp [insert]
  | group p slots =>
    simp only [insert]
    split
    · simp
    · rename_i apart
      cases p with
      | nil => cases k <;> simp_all [Fits]
      | cons i p =>
        cases k with
        | nil => simp [Fits] at fits
        | cons j k => simp only [part]; split <;> simp
  | inner kids => cases k <;> simp [insert]

theorem part_isInner {slots slots' : κ → Option V} {p q : List ι}
    (lengths : p.length = q.length) (apart : p ≠ q) : IsInner (part slots slots' p q) := by
  cases p with
  | nil => cases q <;> simp_all
  | cons i p =>
    cases q with
    | nil => simp at lengths
    | cons j q => simp only [part]; split <;> trivial

theorem part_canonical {slots slots' : κ → Option V} {p q : List ι}
    (lengths : p.length = q.length) (apart : p ≠ q) (held : ∃ x, slots x ≠ none)
    (held' : ∃ x, slots' x ≠ none) : Canonical (part slots slots' p q) := by
  induction p generalizing q with
  | nil => cases q <;> simp_all
  | cons i p ih =>
    cases q with
    | nil => simp at lengths
    | cons j q =>
      simp only [List.length_cons, Nat.add_right_cancel_iff] at lengths
      by_cases same : i = j
      · subst same
        have apart' : p ≠ q := fun equal => apart (by rw [equal])
        simp only [part, ↓reduceIte]
        refine ⟨fun a => ?_, Or.inr ⟨i, ?_⟩⟩
        · by_cases here : a = i
          · subst here; simpa using ih lengths apart'
          · simp [here, bare, Canonical]
        · simpa using part_isInner lengths apart'
      · simp only [part, same, ↓reduceIte]
        refine ⟨fun a => ?_, Or.inl ⟨i, j, same, by simp [same], by simp⟩⟩
        by_cases new : a = j
        · subst new; simpa [Canonical] using held'
        · by_cases old : a = i
          · subst old; simpa [new, Canonical] using held
          · simp [new, old, bare, Canonical]

theorem insert_isInner {t : Tree ι κ V} (shape : IsInner t) (k : List ι) (x : κ) (v : V) :
    IsInner (insert t k x v) := by
  cases t with
  | inner kids => cases k <;> simp [insert, IsInner]
  | _ => simp [IsInner] at shape

theorem crowded_update {kids : ι → Tree ι κ V} {i : ι} {t : Tree ι κ V} (occupied : t ≠ .empty)
    (stays : IsInner (kids i) → IsInner t) (crowded : Crowded kids) :
    Crowded (Function.update kids i t) := by
  have keeps : ∀ j, kids j ≠ .empty → Function.update kids i t j ≠ .empty := by
    intro j held
    by_cases same : j = i
    · subst same; simpa using occupied
    · simpa [same] using held
  rcases crowded with ⟨a, b, differ, ha, hb⟩ | ⟨a, shape⟩
  · exact Or.inl ⟨a, b, differ, keeps a ha, keeps b hb⟩
  · refine Or.inr ⟨a, ?_⟩
    by_cases same : a = i
    · subst same; simpa using stays shape
    · simpa [same] using shape

theorem insert_canonical {t : Tree ι κ V} {k : List ι} (fits : Fits t k.length)
    (valid : Canonical t) (x : κ) (v : V) : Canonical (insert t k x v) := by
  induction t generalizing k with
  | empty => exact single_occupied x v
  | group p slots =>
    simp only [insert]
    split
    · exact ⟨x, by simp⟩
    · rename_i apart
      exact part_canonical fits apart valid (single_occupied x v)
  | inner kids ih =>
    obtain ⟨m, size, below⟩ := fits
    cases k with
    | nil => simp at size
    | cons i k =>
      simp only [List.length_cons, Nat.add_right_cancel_iff] at size
      have fits' : Fits (kids i) k.length := size ▸ below i
      refine ⟨fun j => ?_, crowded_update (insert_ne_empty fits' x v)
        (fun shape => insert_isInner shape k x v) valid.2⟩
      by_cases here : j = i
      · subst here; simpa using ih j fits' (valid.1 j)
      · simpa [here] using valid.1 j

theorem rooted_insert {kids : ι → Tree ι κ V} {i : ι} {k : List ι}
    (rooted : Rooted kids k.length) (x : κ) (v : V) :
    Rooted (Function.update kids i (insert (kids i) k x v)) k.length := by
  constructor
  · intro j
    by_cases here : j = i
    · subst here
      simpa using insert_canonical (rooted.fits j) (rooted.canonical j) x v
    · simpa [here] using rooted.canonical j
  · intro j
    by_cases here : j = i
    · subst here
      simpa using insert_fits (rooted.fits j) x v
    · simpa [here] using rooted.fits j

theorem rooted_bare (depth : Nat) : Rooted (bare : ι → Tree ι κ V) depth :=
  ⟨fun _ => trivial, fun _ => trivial⟩

/- Uniqueness. -/

theorem occupied_has_key {t : Tree ι κ V} (valid : Canonical t) (occupied : t ≠ .empty) :
    ∃ k x, lookup t k x ≠ none := by
  induction t with
  | empty => exact absurd rfl occupied
  | group p slots =>
    obtain ⟨x, held⟩ := valid
    exact ⟨p, x, by simpa [lookup] using held⟩
  | inner kids ih =>
    obtain ⟨i, held⟩ : ∃ i, kids i ≠ .empty := by
      rcases valid.2 with ⟨i, _, _, held, _⟩ | ⟨i, shape⟩
      · exact ⟨i, held⟩
      · exact ⟨i, by intro gone; simp [gone, IsInner] at shape⟩
    obtain ⟨k, x, found⟩ := ih i (valid.1 i) held
    exact ⟨i :: k, x, found⟩

theorem inner_two_stems {t : Tree ι κ V} (valid : Canonical t) (shape : IsInner t) :
    ∃ k x k' x', k ≠ k' ∧ lookup t k x ≠ none ∧ lookup t k' x' ≠ none := by
  induction t with
  | empty => simp [IsInner] at shape
  | group p slots => simp [IsInner] at shape
  | inner kids ih =>
    rcases valid.2 with ⟨i, j, differ, hi, hj⟩ | ⟨i, below⟩
    · obtain ⟨k, x, found⟩ := occupied_has_key (valid.1 i) hi
      obtain ⟨k', x', found'⟩ := occupied_has_key (valid.1 j) hj
      exact ⟨i :: k, x, j :: k', x', by simp [differ], found, found'⟩
    · obtain ⟨k, x, k', x', differ, found, found'⟩ := ih i (valid.1 i) below
      exact ⟨i :: k, x, i :: k', x', by simp [differ], found, found'⟩

theorem group_one_stem {p k : List ι} {slots : κ → Option V} {x : κ}
    (found : lookup (.group p slots) k x ≠ none) : k = p := by
  by_contra other
  simp [lookup, other] at found

theorem group_not_inner {p : List ι} {slots : κ → Option V} {kids : ι → Tree ι κ V}
    (valid : Canonical (.inner kids))
    (same : ∀ k x, lookup (.group p slots) k x = lookup (.inner kids) k x) : False := by
  obtain ⟨k, x, k', x', differ, found, found'⟩ := inner_two_stems valid trivial
  rw [← same] at found found'
  exact differ ((group_one_stem found).trans (group_one_stem found').symm)

theorem empty_of_lookup {t : Tree ι κ V} (valid : Canonical t)
    (none : ∀ k x, lookup t k x = none) : t = .empty := by
  by_contra occupied
  obtain ⟨k, x, found⟩ := occupied_has_key valid occupied
  exact found (none k x)

/-- Canonical trees that answer every lookup alike are the same tree. -/
theorem canonical_unique (s t : Tree ι κ V) (hs : Canonical s) (ht : Canonical t)
    (same : ∀ k x, lookup s k x = lookup t k x) : s = t := by
  induction s generalizing t with
  | empty => exact (empty_of_lookup ht fun k x => (same k x).symm).symm
  | group p slots =>
    cases t with
    | empty => exact empty_of_lookup hs same
    | group q slots' =>
      obtain ⟨x, held⟩ := hs
      have stems : p = q := by
        have found : lookup (.group q slots') p x ≠ none := by
          rw [← same]
          simpa [lookup] using held
        exact group_one_stem found
      subst stems
      have equal : slots = slots' := by
        funext x
        simpa [lookup] using same p x
      rw [equal]
    | inner kids => exact (group_not_inner ht same).elim
  | inner kids ih =>
    cases t with
    | empty => exact empty_of_lookup hs same
    | group q slots' => exact (group_not_inner hs fun k x => (same k x).symm).elim
    | inner kids' =>
      have equal : kids = kids' := by
        funext i
        exact ih i (kids' i) (hs.1 i) (ht.1 i) fun k x => same (i :: k) x
      rw [equal]

theorem rooted_unique {kids kids' : ι → Tree ι κ V} {depth depth' : Nat}
    (left : Rooted kids depth) (right : Rooted kids' depth')
    (same : ∀ k x, lookup (.inner kids) k x = lookup (.inner kids') k x) : kids = kids' := by
  funext i
  exact canonical_unique _ _ (left.canonical i) (right.canonical i) fun k x => same (i :: k) x

/- Subtrees. -/

def subtree : Tree ι κ V → List ι → Tree ι κ V
  | .empty, _ => .empty
  | .group p slots, [] => .group p slots
  | .group _ _, _ :: _ => .empty
  | .inner kids, [] => .inner kids
  | .inner kids, i :: k => subtree (kids i) k

@[simp] theorem subtree_nil (t : Tree ι κ V) : subtree t [] = t := by
  cases t <;> rfl

theorem subtree_append (t : Tree ι κ V) (p q : List ι) :
    subtree t (p ++ q) = subtree (subtree t p) q := by
  induction p generalizing t with
  | nil => rw [List.nil_append, subtree_nil]
  | cons i p ih =>
    cases t with
    | empty => rfl
    | group stem slots => rfl
    | inner kids => exact ih (kids i)

theorem subtree_other {t : Tree ι κ V} (occupied : t ≠ .empty) (i : ι) (k : List ι) :
    subtree t (i :: k) ≠ t := by
  induction t generalizing i k with
  | empty => exact absurd rfl occupied
  | group stem slots => simp [subtree]
  | inner kids ih =>
    intro same
    have child : kids i ≠ .empty := by
      intro gone
      simp [subtree, gone] at same
    -- the child that the tree would lie below would lie below itself
    have again : subtree (kids i) (k ++ [i]) = kids i := by
      rw [subtree_append, show subtree (kids i) k = .inner kids from same]
      exact subtree_nil _
    cases k with
    | nil => exact ih i child i [] again
    | cons j k => exact ih i child j (k ++ [i]) again

end StemTree
