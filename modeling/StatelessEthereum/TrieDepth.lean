import StatelessEthereum.TrieWalk
import Mathlib.Data.Nat.Count

/- How many nodes the walk of a key passes in a canonical trie: a branch for every depth
   at which other keys leave it, an extension before every branch that does not follow
   upon another, and a leaf unless the key ends at a branch. -/
namespace TrieDepth
open CompactTrie TrieWalk
set_option linter.unusedSectionVars false
variable {ι V : Type} [DecidableEq ι]

def trail : Trie ι V → List ι → Nat
  | .empty, _ => 0
  | .leaf _ _, _ => 1
  | .ext p t, k => trail t (k.drop p.length) + 1
  | .branch _ _, [] => 1
  | .branch cs _, i :: k => trail (cs i) k + 1

/-- Every node but the last one takes a digit off the key. -/
theorem trail_bound {t : Trie ι V} (valid : Canonical t) {k : List ι} (there : keysOf t k) :
    trail t k ≤ k.length + 1 := by
  induction t generalizing k with
  | empty => exact absurd rfl there
  | leaf p v => exact Nat.le_add_left 1 _
  | ext p t ih =>
    obtain ⟨some, _, below⟩ := valid
    obtain ⟨⟨k, rfl⟩, rest⟩ := ext_key there
    rw [List.drop_left] at rest
    have more := ih below rest
    have longer := List.length_pos_of_ne_nil some
    rw [trail, List.drop_left, List.length_append]
    omega
  | branch cs w ih =>
    cases k with
    | nil => exact Nat.le_refl 1
    | cons i k => exact Nat.succ_le_succ (ih i (valid.1 i) there)

/-- Another key leaves the path at this depth. -/
def Forks (D : List ι → Prop) (k : List ι) (n : Nat) : Prop :=
  ∃ k', D k' ∧ k' ≠ k ∧ (common k k').length = n

/-- The nodes on a path that forks at some depths. -/
def spread (forks : Nat → Prop) [DecidablePred forks] (size : Nat) : Nat :=
  Nat.count forks (size + 1) +
    Nat.count (fun n => forks n ∧ n ≠ 0 ∧ ¬ forks (n - 1)) (size + 1) +
    if forks size then 0 else 1

/- Paths with a common beginning. -/

theorem common_append (p a b : List ι) : common (p ++ a) (p ++ b) = p ++ common a b := by
  induction p with
  | nil => rfl
  | cons i p ih => rw [List.cons_append, List.cons_append, common, if_pos rfl, ih, List.cons_append]

theorem common_apart {a b : List ι} (apart : a.head? ≠ b.head?) : common a b = [] := by
  cases a with
  | nil => rw [common]; simp
  | cons i a =>
    cases b with
    | nil => rw [common]; simp
    | cons j b =>
      rw [common, if_neg]
      rintro rfl
      exact apart rfl

/-- At a branch some key leaves any path at once. -/
theorem branch_forks {cs : ι → Trie ι V} {w : Option V} (valid : Canonical (.branch cs w))
    (k : List ι) : Forks (keysOf (.branch cs w)) k 0 := by
  obtain ⟨a, b, left, right, apart⟩ := branch_keys_part valid
  have one {k' : List ι} (key : keysOf (.branch cs w) k') (other : k.head? ≠ k'.head?) :
      Forks (keysOf (.branch cs w)) k 0 := by
    refine ⟨k', key, ?_, by rw [common_apart other]; rfl⟩
    rintro rfl
    exact other rfl
  by_cases here : k.head? = a.head?
  · exact one right (by rw [here]; exact apart)
  · exact one left here

/- The count along a path. -/
section Spread
variable (forks : Nat → Prop) [DecidablePred forks]

theorem count_same {p q : Nat → Prop} [DecidablePred p] [DecidablePred q] {n : Nat}
    (same : ∀ i < n, p i ↔ q i) : Nat.count p n = Nat.count q n := by
  induction n with
  | zero => rfl
  | succ n ih =>
    have last := same n (Nat.lt_succ_self n)
    rw [Nat.count_succ, Nat.count_succ, ih fun i inside => same i (Nat.lt_succ_of_lt inside)]
    simp only [last]

theorem spread_leaf (none : ∀ n, ¬ forks n) (size : Nat) : spread forks size = 1 := by
  rw [spread, Nat.count_of_forall_not fun i _ => none i,
    Nat.count_of_forall_not fun i _ there => none i there.1, if_neg (none size)]

theorem spread_end (here : forks 0) : spread forks 0 = 1 := by
  simp [spread, Nat.count_succ, here]

theorem spread_branch (here : forks 0) (size : Nat) :
    spread forks (size + 1) = spread (fun n => forks (n + 1)) size + 1 := by
  have branches : Nat.count forks (size + 2) = Nat.count (fun n => forks (n + 1)) (size + 1) + 1 := by
    rw [Nat.count_succ', if_pos here]
  have steps : Nat.count (fun n => forks n ∧ n ≠ 0 ∧ ¬ forks (n - 1)) (size + 2) =
      Nat.count (fun n => forks (n + 1) ∧ n ≠ 0 ∧ ¬ forks (n - 1 + 1)) (size + 1) := by
    rw [Nat.count_succ', if_neg fun there => there.2.1 rfl, Nat.add_zero]
    refine count_same fun i _ => ?_
    cases i with
    | zero => simp [here]
    | succ i => simp
  rw [spread, spread, branches, steps]
  omega

theorem spread_ext {m : Nat} (some : m ≠ 0) (here : forks m) (above : ∀ n < m, ¬ forks n)
    (size : Nat) : spread forks (m + size) = spread (fun n => forks (m + n)) size + 1 := by
  have branches : Nat.count forks (m + size + 1) = Nat.count (fun n => forks (m + n)) (size + 1) := by
    rw [Nat.add_assoc, Nat.count_add, Nat.count_of_forall_not above, Nat.zero_add]
  have first : forks (m + 0) ∧ m + 0 ≠ 0 ∧ ¬ forks (m + 0 - 1) := ⟨here, some, above _ (by omega)⟩
  have steps : Nat.count (fun n => forks n ∧ n ≠ 0 ∧ ¬ forks (n - 1)) (m + size + 1) =
      Nat.count (fun n => forks (m + n) ∧ n ≠ 0 ∧ ¬ forks (m + (n - 1))) (size + 1) + 1 := by
    rw [Nat.add_assoc, Nat.count_add, Nat.count_of_forall_not fun i less there => above i less there.1,
      Nat.zero_add, Nat.count_succ', if_pos first, Nat.count_succ', if_neg fun there => there.2.1 rfl,
      Nat.add_zero]
    congr 1
    refine count_same fun i _ => ?_
    have back : m + (i + 1) - 1 = m + (i + 1 - 1) := by omega
    rw [back]
    simp
  rw [spread, spread, branches, steps]
  omega

end Spread

theorem ext_forks {p : List ι} {t : Trie ι V} {k : List ι} (n : Nat) :
    Forks (keysOf (.ext p t)) (p ++ k) n ↔ ∃ m, n = p.length + m ∧ Forks (keysOf t) k m := by
  constructor
  · rintro ⟨k', key, other, rfl⟩
    obtain ⟨⟨below, rfl⟩, _⟩ := ext_key key
    refine ⟨(common k below).length, by rw [common_append, List.length_append], below,
      (ext_shift p t below).mp key, ?_, rfl⟩
    rintro rfl
    exact other rfl
  · rintro ⟨m, rfl, below, key, other, rfl⟩
    refine ⟨p ++ below, (ext_shift p t below).mpr key, ?_, by rw [common_append, List.length_append]⟩
    intro same
    exact other (List.append_cancel_left same)

theorem slot_forks {cs : ι → Trie ι V} {w : Option V} {i : ι} {k : List ι} (n : Nat) :
    Forks (keysOf (.branch cs w)) (i :: k) (n + 1) ↔ Forks (keysOf (cs i)) k n := by
  constructor
  · rintro ⟨k', key, other, size⟩
    cases k' with
    | nil => simp [common] at size
    | cons j below =>
      rw [common] at size
      split at size
      · rename_i same
        subst same
        refine ⟨below, key, ?_, Nat.succ.inj size⟩
        rintro rfl
        exact other rfl
      · cases size
  · rintro ⟨below, key, other, rfl⟩
    refine ⟨i :: below, key, ?_, by rw [common, if_pos rfl]; rfl⟩
    intro same
    exact other (List.cons.inj same).2

/-- The walk of a key passes a node for each of its forks, and one for each way there. -/
theorem trail_spread {t : Trie ι V} (valid : Canonical t) {k : List ι} (there : keysOf t k)
    (forks : Nat → Prop) [DecidablePred forks] (exact : ∀ n, forks n ↔ Forks (keysOf t) k n) :
    trail t k = spread forks k.length := by
  induction t generalizing k forks with
  | empty => exact absurd rfl there
  | leaf p v =>
    have own {k' : List ι} (key : keysOf (.leaf p v) k') : p = k' := by
      by_contra other
      simp [keysOf, lookup, other] at key
    rw [trail, spread_leaf forks]
    intro n fork
    obtain ⟨k', key, other, _⟩ := (exact n).mp fork
    exact other ((own key).symm.trans (own there))
  | ext p t ih =>
    obtain ⟨some, shape, below⟩ := valid
    obtain ⟨⟨k, rfl⟩, rest⟩ := ext_key there
    rw [List.drop_left] at rest
    have start : Forks (keysOf t) k 0 := by
      cases t with
      | branch cs w => exact branch_forks below k
      | _ => cases shape
    have here : forks p.length := (exact _).mpr ((ext_forks _).mpr ⟨0, rfl, start⟩)
    have above (n : Nat) (less : n < p.length) : ¬ forks n := by
      intro fork
      obtain ⟨m, rfl, _⟩ := (ext_forks n).mp ((exact n).mp fork)
      omega
    have shifted (n : Nat) : forks (p.length + n) ↔ Forks (keysOf t) k n := by
      rw [exact, ext_forks]
      constructor
      · rintro ⟨m, same, fork⟩
        rwa [Nat.add_left_cancel same]
      · intro fork
        exact ⟨n, rfl, fork⟩
    rw [trail, List.drop_left, List.length_append,
      spread_ext forks (fun none => some (List.eq_nil_of_length_eq_zero none)) here above,
      ih below rest _ shifted]
  | branch cs w ih =>
    have here : forks 0 := (exact 0).mpr (branch_forks valid k)
    cases k with
    | nil => rw [trail, List.length_nil, spread_end forks here]
    | cons i k =>
      rw [trail, List.length_cons, spread_branch forks here]
      have shifted (n : Nat) : forks (n + 1) ↔ Forks (keysOf (cs i)) k n :=
        (exact (n + 1)).trans (slot_forks n)
      rw [ih i (valid.1 i) there _ shifted]

end TrieDepth
