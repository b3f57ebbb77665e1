import StatelessEthereum.StemTree

/- How deep the walk of a stem goes: one inner node for each digit that some other stem
   shares with it, then its group. -/
namespace StemDepth
open StemTree
set_option linter.unusedSectionVars false
variable {ι κ V : Type} [DecidableEq ι] [DecidableEq κ]

def shared : List ι → List ι → Nat
  | i :: p, j :: q => if i = j then shared p q + 1 else 0
  | _, _ => 0

/-- The nodes that the walk of a stem passes, a group counted with its slots. -/
def trail : Tree ι κ V → List ι → Nat
  | .empty, _ => 0
  | .group p _, k => if k = p then 2 else 1
  | .inner _, [] => 1
  | .inner kids, i :: k => trail (kids i) k + 1

def Stem (t : Tree ι κ V) (k : List ι) : Prop := ∃ x, lookup t k x ≠ none

theorem shared_cons (i j : ι) (p q : List ι) :
    shared (i :: p) (j :: q) = if i = j then shared p q + 1 else 0 := rfl

theorem stem_inner {kids : ι → Tree ι κ V} {k : List ι} (there : Stem (.inner kids) k) :
    ∃ i below, k = i :: below ∧ Stem (kids i) below := by
  obtain ⟨x, held⟩ := there
  cases k with
  | nil => simp [lookup] at held
  | cons i below => exact ⟨i, below, rfl, x, held⟩

theorem inner_stem {kids : ι → Tree ι κ V} {i : ι} {below : List ι} (there : Stem (kids i) below) :
    Stem (.inner kids) (i :: below) := there

theorem trail_two {t : Tree ι κ V} {k : List ι} (there : Stem t k) : 2 ≤ trail t k := by
  induction t generalizing k with
  | empty =>
    obtain ⟨_, held⟩ := there
    simp [lookup] at held
  | group p slots =>
    obtain ⟨_, held⟩ := there
    rw [trail, if_pos (group_one_stem held)]
  | inner kids ih =>
    obtain ⟨i, below, rfl, there⟩ := stem_inner there
    exact Nat.le_succ_of_le (ih i there)

/-- Below an inner node the walk of a stem is longer than its group. -/
theorem trail_inner {t : Tree ι κ V} (shape : IsInner t) {k : List ι} (there : Stem t k) :
    3 ≤ trail t k := by
  cases t with
  | empty => cases shape
  | group p slots => cases shape
  | inner kids =>
    obtain ⟨i, below, rfl, there⟩ := stem_inner there
    exact Nat.succ_le_succ (trail_two there)

/-- What the trail of a stem says of the others: none of them shares so much, and one of
    them just falls short. -/
structure Deep (t : Tree ι κ V) (k : List ι) (m : Nat) : Prop where
  above : ∀ k', Stem t k' → k' ≠ k → shared k k' < m
  reached : m ≠ 0 → ∃ k', Stem t k' ∧ k' ≠ k ∧ shared k k' + 1 = m

/-- Other stems hang below an inner node, and where the walk meets no further one they
    part from it right there. -/
theorem crowded_other {kids : ι → Tree ι κ V} (valid : Canonical (.inner kids)) {i : ι}
    {below : List ι} (there : Stem (kids i) below) (last : trail (kids i) below = 2) :
    ∃ j k', j ≠ i ∧ Stem (kids j) k' := by
  have keyed {j : ι} (occupied : kids j ≠ .empty) : ∃ k', Stem (kids j) k' := by
    obtain ⟨k', x, held⟩ := occupied_has_key (valid.1 j) occupied
    exact ⟨k', x, held⟩
  rcases valid.2 with ⟨a, b, apart, left, right⟩ | ⟨j, shape⟩
  · by_cases here : a = i
    · obtain ⟨k', held⟩ := keyed right
      exact ⟨b, k', fun same => apart (here.trans same.symm), held⟩
    · obtain ⟨k', held⟩ := keyed left
      exact ⟨a, k', here, held⟩
  · by_cases here : j = i
    · subst here
      have more := trail_inner shape there
      omega
    · obtain ⟨k', held⟩ := keyed (j := j) (by intro gone; simp [gone, IsInner] at shape)
      exact ⟨j, k', here, held⟩

theorem trail_deep {t : Tree ι κ V} (valid : Canonical t) {k : List ι} (there : Stem t k) :
    ∃ m, trail t k = m + 2 ∧ Deep t k m := by
  induction t generalizing k with
  | empty =>
    obtain ⟨_, held⟩ := there
    simp [lookup] at held
  | group p slots =>
    obtain ⟨x, held⟩ := there
    have own := group_one_stem held
    refine ⟨0, by rw [trail, if_pos own], fun k' there' other => ?_, fun some => absurd rfl some⟩
    obtain ⟨x', held'⟩ := there'
    exact absurd ((group_one_stem held').trans own.symm) other
  | inner kids ih =>
    obtain ⟨i, below, rfl, there⟩ := stem_inner there
    obtain ⟨m, size, deep⟩ := ih i (valid.1 i) there
    refine ⟨m + 1, by rw [trail, size], fun k' there' other => ?_, fun _ => ?_⟩
    · obtain ⟨j, rest, rfl, there'⟩ := stem_inner there'
      rw [shared_cons]
      by_cases same : i = j
      · subst same
        have less := deep.above rest there' (by simpa using other)
        rw [if_pos rfl]
        omega
      · rw [if_neg same]
        omega
    · by_cases none : m = 0
      · obtain ⟨j, rest, apart, there'⟩ := crowded_other valid there (by rw [size, none])
        refine ⟨j :: rest, inner_stem there', by simp [apart], ?_⟩
        rw [shared_cons, if_neg (Ne.symm apart), none]
      · obtain ⟨rest, there', other, reached⟩ := deep.reached none
        refine ⟨i :: rest, inner_stem there', by simpa using other, ?_⟩
        rw [shared_cons, if_pos rfl, reached]

/-- The walk from a root that may be bare: as many inner nodes below it as the stem shares
    digits with the nearest of the others. -/
theorem rooted_trail {kids : ι → Tree ι κ V} {depth : Nat} (rooted : Rooted kids depth)
    {k : List ι} (there : Stem (.inner kids) k) : ∃ m, trail (.inner kids) k = m + 3 ∧
      (∀ k', Stem (.inner kids) k' → k' ≠ k → shared k k' ≤ m) ∧
      (m ≠ 0 → ∃ k', Stem (.inner kids) k' ∧ k' ≠ k ∧ shared k k' = m) := by
  obtain ⟨i, below, rfl, there⟩ := stem_inner there
  obtain ⟨m, size, deep⟩ := trail_deep (rooted.canonical i) there
  refine ⟨m, by rw [trail, size], fun k' there' other => ?_, fun some => ?_⟩
  · obtain ⟨j, rest, rfl, there'⟩ := stem_inner there'
    rw [shared_cons]
    by_cases same : i = j
    · subst same
      have less := deep.above rest there' (by simpa using other)
      rw [if_pos rfl]
      omega
    · rw [if_neg same]
      omega
  · obtain ⟨rest, there', other, reached⟩ := deep.reached some
    refine ⟨i :: rest, inner_stem there', by simpa using other, ?_⟩
    rw [shared_cons, if_pos rfl, reached]

/-- The largest number of digits that a stem shares with one of the others. -/
def overlap (k : List ι) (others : List (List ι)) : Nat :=
  ((others.filter fun k' => k' ≠ k).map (shared k)).foldr max 0

theorem overlap_bound {k : List ι} {others : List (List ι)} {k' : List ι} (member : k' ∈ others)
    (other : k' ≠ k) : shared k k' ≤ overlap k others := by
  unfold overlap
  induction others with
  | nil => cases member
  | cons first others ih =>
    rw [List.filter_cons]
    rcases List.mem_cons.mp member with rfl | later
    · rw [if_pos (by simpa using other), List.map_cons, List.foldr_cons]
      exact Nat.le_max_left _ _
    · split
      · rw [List.map_cons, List.foldr_cons]
        exact Nat.le_trans (ih later) (Nat.le_max_right _ _)
      · exact ih later

theorem overlap_attained {k : List ι} {others : List (List ι)} (some : overlap k others ≠ 0) :
    ∃ k' ∈ others, k' ≠ k ∧ shared k k' = overlap k others := by
  unfold overlap at some ⊢
  induction others with
  | nil => exact absurd rfl some
  | cons first others ih =>
    rw [List.filter_cons] at some ⊢
    split at some
    · rename_i other
      rw [List.map_cons, List.foldr_cons] at some
      rw [if_pos other, List.map_cons, List.foldr_cons]
      rcases Nat.le_total (shared k first)
        (((others.filter fun k' => k' ≠ k).map (shared k)).foldr max 0) with less | more
      · rw [Nat.max_eq_right less] at some ⊢
        obtain ⟨k', member, apart, same⟩ := ih some
        exact ⟨k', List.mem_cons_of_mem _ member, apart, same⟩
      · rw [Nat.max_eq_left more]
        exact ⟨first, List.mem_cons_self, by simpa using other, rfl⟩
    · rename_i own
      rw [if_neg own]
      obtain ⟨k', member, apart, same⟩ := ih some
      exact ⟨k', List.mem_cons_of_mem _ member, apart, same⟩

/-- The trail of a stem of a rooted tree whose stems are listed. -/
theorem rooted_overlap {kids : ι → Tree ι κ V} {depth : Nat} (rooted : Rooted kids depth)
    {others : List (List ι)} (listed : ∀ k, Stem (.inner kids) k ↔ k ∈ others) {k : List ι}
    (member : k ∈ others) : trail (.inner kids) k = overlap k others + 3 := by
  obtain ⟨m, size, above, reached⟩ := rooted_trail rooted ((listed k).mpr member)
  have least : m ≤ overlap k others := by
    by_cases none : m = 0
    · omega
    · obtain ⟨k', there, other, same⟩ := reached none
      rw [← same]
      exact overlap_bound ((listed k').mp there) other
  have most : overlap k others ≤ m := by
    by_cases none : overlap k others = 0
    · omega
    · obtain ⟨k', inside, other, same⟩ := overlap_attained none
      rw [← same]
      exact above k' ((listed k').mpr inside) other
  omega

/- Digits under other names. -/

theorem shared_map {κ' : Type} [DecidableEq κ'] {f : ι → κ'} (distinct : Function.Injective f)
    (p q : List ι) : shared (p.map f) (q.map f) = shared p q := by
  induction p generalizing q with
  | nil => rfl
  | cons i p ih =>
    cases q with
    | nil => rfl
    | cons j q =>
      rw [List.map_cons, List.map_cons, shared_cons, shared_cons, ih]
      simp only [distinct.eq_iff]

theorem overlap_map {κ' : Type} [DecidableEq κ'] {f : ι → κ'} (distinct : Function.Injective f)
    (k : List ι) (others : List (List ι)) :
    overlap (k.map f) (others.map (List.map f)) = overlap k others := by
  have names : Function.Injective (List.map f) := List.map_injective_iff.mpr distinct
  unfold overlap
  induction others with
  | nil => rfl
  | cons first others ih =>
    rw [List.map_cons, List.filter_cons, List.filter_cons]
    by_cases own : first = k
    · rw [if_neg (by simp [own]), if_neg (by simp [own])]
      exact ih
    · have own' : first.map f ≠ k.map f := fun same => own (names same)
      rw [if_pos (by simpa using own'), if_pos (by simpa using own), List.map_cons, List.map_cons,
        List.foldr_cons, List.foldr_cons, ih, shared_map distinct]

end StemDepth
