import StatelessEthereum.PythonError
import Mathlib.Algebra.Group.Nat.Hom
import Mathlib.Algebra.BigOperators.Group.List.Basic
import Mathlib.Algebra.BigOperators.Intervals
import Mathlib.Tactic.Abel

/- Linear combinations by subset sums (verkle/utils/multicombs.py). The numbers
   are of any type with an addition and a zero. -/
namespace MultiCombs
open PythonError BigEndian
variable {G : Type} (adder : G → G → G) (zero : G)

/-- Padding to a multiple of the partition size. -/
def padNumbers (partitionSize : Nat) (numbers : List G) : List G :=
  numbers ++ List.replicate ((partitionSize - numbers.length % partitionSize) % partitionSize) zero

def partitions (partitionSize : Nat) (numbers : List G) : List (List G) :=
  (List.range (numbers.length / partitionSize)).map fun i =>
    (numbers.drop (i * partitionSize)).take partitionSize

def powerSet (partition : List G) : List G :=
  partition.foldl (fun set value => set ++ set.map fun n => adder n value) [zero]

def indexInPowerSet (member : Nat → Bool) (start : Nat) (partitionSize : Nat) : Nat :=
  (List.range partitionSize).foldl (fun index j =>
    if member (start + j) then index + 2 ^ j else index) 0

def subsetSum (partitionSize : Nat) (powerSets : List (List G)) (member : Nat → Bool) : G :=
  (List.range powerSets.length).foldl (fun o i =>
    adder o ((powerSets.getD i []).getD
      (indexInPowerSet member (i * partitionSize) partitionSize) zero)) zero

/-- A subset is given by its membership test. The float logarithm is a
    parameter: it fixes the partition size only. -/
def multisubset2 (logFloor : Nat → Nat) (numbers : List G) (subsets : List (Nat → Bool)) : List G :=
  let partitionSize := 1 + logFloor (subsets.length + 1)
  let powerSets := (partitions partitionSize (padNumbers zero partitionSize numbers)).map
    (powerSet adder zero)
  subsets.map (subsetSum adder zero partitionSize powerSets)

/-- `len(bin(f)) - 2` -/
def binaryLength (f : Nat) : Nat := if f = 0 then 1 else bitLength f

def lincomb (logFloor : Nat → Nat) (numbers : List G) (factors : List Nat) : Except PyError G :=
  if factors = [] then .error (.valueError "")
  else if factors.length < numbers.length then .error .indexError
  else
    let maxbitlen := (factors.map binaryLength).foldl max 0
    let subsets := (List.range (maxbitlen + 1)).map fun j i =>
      i < numbers.length && (factors.getD i 0).testBit j
    let subsetSums := multisubset2 adder zero logFloor numbers subsets
    .ok (subsetSums.foldr (fun s o => adder (adder o o) s) zero)

/- The value of the computation under a homomorphism to a commutative monoid. -/
section Value
variable {A : Type} [AddCommMonoid A] {φ : G → A}

/-- The sum of the numbers, numbered from a start, that are in a subset. -/
def memberSum (φ : G → A) (member : Nat → Bool) : Nat → List G → A
  | _, [] => 0
  | start, n :: rest => (if member start then φ n else 0) + memberSum φ member (start + 1) rest

theorem memberSum_congr {member member' : Nat → Bool} {start : Nat} {numbers : List G}
    (agree : ∀ i, start ≤ i → i < start + numbers.length → member i = member' i) :
    memberSum φ member start numbers = memberSum φ member' start numbers := by
  induction numbers generalizing start with
  | nil => rfl
  | cons n numbers ih =>
    rw [List.length_cons] at agree
    rw [memberSum, memberSum, agree start (Nat.le_refl _) (by omega),
      ih fun i below inside => agree i (by omega) (by omega)]

theorem memberSum_append (member : Nat → Bool) (start : Nat) (xs ys : List G) :
    memberSum φ member start (xs ++ ys) =
      memberSum φ member start xs + memberSum φ member (start + xs.length) ys := by
  induction xs generalizing start with
  | nil => simp [memberSum]
  | cons x xs ih =>
    simp only [List.cons_append, memberSum, ih, List.length_cons, add_assoc, Nat.add_comm 1]

variable (plus : ∀ x y, φ (adder x y) = φ x + φ y) (none : φ zero = 0)

theorem memberSum_zeros {φ : G → A} (none : φ zero = 0) (member : Nat → Bool) (start n : Nat) :
    memberSum φ member start (List.replicate n zero) = 0 := by
  induction n generalizing start with
  | zero => rfl
  | succ n ih => simp [List.replicate_succ, memberSum, none, ih]

theorem padNumbers_length (size : Nat) (positive : 0 < size) (numbers : List G) :
    (padNumbers zero size numbers).length =
      (padNumbers zero size numbers).length / size * size := by
  have whole : size ∣ (padNumbers zero size numbers).length := by
    rw [padNumbers, List.length_append, List.length_replicate]
    have parts := Nat.div_add_mod numbers.length size
    have low := Nat.mod_lt numbers.length positive
    apply Nat.dvd_of_mod_eq_zero
    rcases Nat.eq_zero_or_pos (numbers.length % size) with even | odd
    · simp [even]
    · rw [Nat.mod_eq_of_lt (by omega : size - numbers.length % size < size)]
      have total : numbers.length + (size - numbers.length % size) =
          size * (numbers.length / size + 1) := by
        rw [Nat.mul_add, Nat.mul_one]
        omega
      rw [total, Nat.mul_mod_right]
  exact (Nat.div_mul_cancel whole).symm

theorem padNumbers_sum {φ : G → A} (none : φ zero = 0) (size : Nat) (member : Nat → Bool) (numbers : List G) :
    memberSum φ member 0 (padNumbers zero size numbers) = memberSum φ member 0 numbers := by
  rw [padNumbers, memberSum_append, memberSum_zeros zero none, add_zero]

theorem indexInPowerSet_succ (member : Nat → Bool) (start n : Nat) :
    indexInPowerSet member start (n + 1) =
      indexInPowerSet member start n + if member (start + n) then 2 ^ n else 0 := by
  simp only [indexInPowerSet, List.range_succ, List.foldl_append, List.foldl_cons, List.foldl_nil]
  split <;> rfl

theorem indexInPowerSet_lt (member : Nat → Bool) (start n : Nat) :
    indexInPowerSet member start n < 2 ^ n := by
  induction n with
  | zero => simp [indexInPowerSet]
  | succ n ih =>
    rw [indexInPowerSet_succ, pow_succ]
    split <;> omega

theorem powerSet_append (xs : List G) (v : G) : powerSet adder zero (xs ++ [v]) =
    powerSet adder zero xs ++ (powerSet adder zero xs).map fun n => adder n v := by
  simp [powerSet]

theorem powerSet_length (xs : List G) : (powerSet adder zero xs).length = 2 ^ xs.length := by
  induction xs using List.reverseRecOn with
  | nil => rfl
  | append_singleton xs v ih =>
    rw [powerSet_append, List.length_append, List.length_map, ih, List.length_append,
      List.length_singleton, pow_succ]
    omega

include plus none

theorem powerSet_entry (member : Nat → Bool) (start : Nat) (xs : List G) :
    φ ((powerSet adder zero xs).getD (indexInPowerSet member start xs.length) zero) =
      memberSum φ member start xs := by
  induction xs using List.reverseRecOn with
  | nil => simp [powerSet, indexInPowerSet, memberSum, none]
  | append_singleton xs v ih =>
    have size := powerSet_length adder zero xs
    have small := indexInPowerSet_lt member start xs.length
    rw [memberSum_append, ← ih, powerSet_append, List.length_append, List.length_singleton,
      indexInPowerSet_succ]
    simp only [List.getD_eq_getElem?_getD]
    by_cases inside : member (start + xs.length)
    · rw [if_pos inside, List.getElem?_append_right (by omega), size, Nat.add_sub_cancel,
        List.getElem?_map, List.getElem?_eq_getElem (by omega)]
      simp [plus, memberSum, inside]
    · rw [if_neg inside, Nat.add_zero, List.getElem?_append_left (by omega)]
      simp [memberSum, inside]

theorem subsetSum_partitions (member : Nat → Bool) {size : Nat} (count : Nat) {numbers : List G}
    (whole : numbers.length = count * size) :
    φ ((List.range count).foldl (fun o i => adder o
      (((powerSet adder zero ((numbers.drop (i * size)).take size)).getD
        (indexInPowerSet member (i * size) size) zero))) zero) = memberSum φ member 0 numbers := by
  have first (c : Nat) (few : c ≤ count) : φ ((List.range c).foldl (fun o i => adder o
      (((powerSet adder zero ((numbers.drop (i * size)).take size)).getD
        (indexInPowerSet member (i * size) size) zero))) zero) =
          memberSum φ member 0 (numbers.take (c * size)) := by
    induction c with
    | zero => simp [memberSum, none]
    | succ c ih =>
      have room : (c + 1) * size ≤ count * size := Nat.mul_le_mul_right size few
      have step : (c + 1) * size = c * size + size := Nat.succ_mul c size
      have long : ((numbers.drop (c * size)).take size).length = size := by
        rw [List.length_take, List.length_drop]
        omega
      have entry := powerSet_entry adder zero plus none member (c * size)
        ((numbers.drop (c * size)).take size)
      rw [long] at entry
      rw [List.range_succ, List.foldl_append, List.foldl_cons, List.foldl_nil, plus,
        ih (by omega), entry, step, List.take_add, memberSum_append, List.length_take,
        Nat.min_eq_left (by omega), Nat.zero_add]
  rw [first count (Nat.le_refl _), ← whole, List.take_length]

/-- Every entry of `multisubset2` is the sum of the subset's numbers. -/
theorem multisubset2_sums (logFloor : Nat → Nat) (numbers : List G)
    (subsets : List (Nat → Bool)) :
    (multisubset2 adder zero logFloor numbers subsets).map φ =
      subsets.map fun member => memberSum φ member 0 numbers := by
  simp only [multisubset2, List.map_map]
  apply List.map_congr_left
  intro member _
  have positive : 0 < 1 + logFloor (subsets.length + 1) := by omega
  have whole := padNumbers_length zero _ positive numbers
  have sum := subsetSum_partitions adder zero plus none member _ whole
  rw [← padNumbers_sum zero none (1 + logFloor (subsets.length + 1)) member numbers, ← sum]
  simp only [Function.comp_apply, subsetSum, partitions, List.length_map, List.length_range]
  congr 1
  apply List.foldl_ext
  intro o i inside
  have small := List.mem_range.mp inside
  simp [List.getD_eq_getElem?_getD, small]

end Value

/- Horner's rule on the bits of the factors. -/
section Binary
variable {A : Type} [AddCommMonoid A] {φ : G → A}

def bitSum (φ : G → A) (factors : List Nat) (numbers : List G) (j : Nat) : A :=
  (List.zipWith (fun f x => if f.testBit j then φ x else 0) factors numbers).sum

def weightedSum (φ : G → A) (factors : List Nat) (numbers : List G) : A :=
  (List.zipWith (fun f x => f • φ x) factors numbers).sum

theorem memberSum_shift (member : Nat → Bool) (start : Nat) (xs : List G) :
    memberSum φ member (start + 1) xs = memberSum φ (fun i => member (i + 1)) start xs := by
  induction xs generalizing start with
  | nil => rfl
  | cons x xs ih => simp [memberSum, ih]

theorem memberSum_testBit (factors : List Nat) (numbers : List G) (j : Nat) :
    memberSum φ (fun i => (factors.getD i 0).testBit j) 0 numbers = bitSum φ factors numbers j := by
  induction numbers generalizing factors with
  | nil => simp [memberSum, bitSum]
  | cons x numbers ih =>
    rw [memberSum, memberSum_shift]
    cases factors with
    | nil =>
      have rest := ih []
      simpa [bitSum] using rest
    | cons f factors =>
      have rest := ih factors
      simp only [List.getD_cons_succ, List.getD_cons_zero]
      rw [rest]
      simp [bitSum]

theorem bitSum_succ (factors : List Nat) (numbers : List G) (j : Nat) :
    bitSum φ factors numbers (j + 1) = bitSum φ (factors.map (· / 2)) numbers j := by
  simp [bitSum, List.zipWith_map_left, Nat.testBit_succ]

theorem weightedSum_halves (factors : List Nat) (numbers : List G) :
    weightedSum φ (factors.map (· / 2)) numbers + weightedSum φ (factors.map (· / 2)) numbers +
      bitSum φ factors numbers 0 = weightedSum φ factors numbers := by
  induction factors generalizing numbers with
  | nil => simp [weightedSum, bitSum]
  | cons f factors ih =>
    cases numbers with
    | nil => simp [weightedSum, bitSum]
    | cons x numbers =>
      have rest := ih numbers
      have whole : f = f / 2 + f / 2 + if f.testBit 0 then 1 else 0 := by
        rw [Nat.testBit_zero]
        by_cases odd : f % 2 = 1
        · simp only [odd, decide_true, ↓reduceIte]; omega
        · simp only [odd, decide_false, Bool.false_eq_true, ↓reduceIte]; omega
      have head : f • φ x = (f / 2) • φ x + (f / 2) • φ x + if f.testBit 0 then φ x else 0 := by
        conv => lhs; rw [whole]
        rw [add_nsmul, add_nsmul]
        split
        · rw [one_nsmul]
        · rw [zero_nsmul]
      simp only [weightedSum, bitSum, List.map_cons, List.zipWith_cons_cons, List.sum_cons]
        at rest ⊢
      rw [head, ← rest]
      abel

theorem weightedSum_zeros {factors : List Nat} (zeros : ∀ f ∈ factors, f = 0)
    (numbers : List G) : weightedSum φ factors numbers = 0 := by
  induction factors generalizing numbers with
  | nil => simp [weightedSum]
  | cons f factors ih =>
    cases numbers with
    | nil => simp [weightedSum]
    | cons x numbers =>
      have rest := ih (fun g member => zeros g (List.mem_cons_of_mem _ member)) numbers
      simpa [weightedSum, zeros f List.mem_cons_self] using rest

/-- Doubling and adding the bit sums, the highest first. -/
theorem binary_sum (plus : ∀ x y, φ (adder x y) = φ x + φ y) (none : φ zero = 0)
    (numbers : List G) (n : Nat) (factors : List Nat) (width : ∀ f ∈ factors, f < 2 ^ n)
    (sums : List G)
    (values : sums.map φ = (List.range n).map fun j => bitSum φ factors numbers j) :
    φ (sums.foldr (fun s o => adder (adder o o) s) zero) = weightedSum φ factors numbers := by
  induction n generalizing factors sums with
  | zero =>
    have empty : sums = [] := by simpa using values
    rw [empty, weightedSum_zeros fun f member => by simpa using width f member]
    exact none
  | succ n ih =>
    rw [List.range_succ_eq_map, List.map_cons, List.map_map] at values
    cases sums with
    | nil => simp at values
    | cons s sums =>
      simp only [List.map_cons, List.cons.injEq] at values
      obtain ⟨low, high⟩ := values
      have rest := ih (factors.map (· / 2)) (by
          intro f member
          obtain ⟨g, inside, rfl⟩ := List.mem_map.mp member
          have small := width g inside
          rw [pow_succ] at small
          omega) sums (by
          rw [high]
          exact List.map_congr_left fun j _ => bitSum_succ factors numbers j)
      rw [List.foldr_cons, plus, plus, rest, low, weightedSum_halves]

theorem binaryLength_bound (f : Nat) : f < 2 ^ binaryLength f := by
  unfold binaryLength
  split
  · omega
  · exact bitLength_bound f

theorem le_foldl_max {n : Nat} {ns : List Nat} (start : Nat) (held : n ≤ start ∨ n ∈ ns) :
    n ≤ ns.foldl max start := by
  induction ns generalizing start with
  | nil => simpa using held
  | cons m ns ih =>
    apply ih
    rcases held with below | member
    · exact Or.inl (Nat.le_trans below (Nat.le_max_left _ _))
    · rcases List.mem_cons.mp member with rfl | later
      · exact Or.inl (Nat.le_max_right _ _)
      · exact Or.inr later

/-- `lincomb` computes the naive linear combination. Factors after the last
    number are not used. -/
theorem lincomb_surplus (plus : ∀ x y, φ (adder x y) = φ x + φ y) (none : φ zero = 0)
    (logFloor : Nat → Nat) {numbers : List G} {factors : List Nat} (some : factors ≠ [])
    (few : numbers.length ≤ factors.length) :
    ∃ o, lincomb adder zero logFloor numbers factors = .ok o ∧
      φ o = weightedSum φ factors numbers := by
  refine ⟨_, by rw [lincomb, if_neg some, if_neg (by omega)], ?_⟩
  refine binary_sum adder zero plus none numbers
    ((factors.map binaryLength).foldl max 0 + 1) factors (fun f member => ?_) _ ?_
  · have below : binaryLength f ≤ (factors.map binaryLength).foldl max 0 :=
      le_foldl_max 0 (Or.inr (List.mem_map_of_mem member))
    exact Nat.lt_of_lt_of_le (binaryLength_bound f) (Nat.pow_le_pow_right (by omega) (by omega))
  · rw [multisubset2_sums adder zero plus none, List.map_map]
    refine List.map_congr_left fun j _ =>
      (memberSum_congr fun i _ inside => ?_).trans (memberSum_testBit factors numbers j)
    have here : i < numbers.length := by omega
    simp only [here, decide_true, Bool.true_and]

theorem lincomb_value (plus : ∀ x y, φ (adder x y) = φ x + φ y) (none : φ zero = 0)
    (logFloor : Nat → Nat) {numbers : List G} {factors : List Nat} (some : factors ≠ [])
    (lengths : numbers.length = factors.length) :
    ∃ o, lincomb adder zero logFloor numbers factors = .ok o ∧
      φ o = weightedSum φ factors numbers :=
  lincomb_surplus adder zero plus none logFloor some (Nat.le_of_eq lengths)

end Binary

/- In a commutative monoid itself. -/
section Monoid
variable [AddCommMonoid G]

theorem memberSum_sum (member : Nat → Bool) (start : Nat) (numbers : List G) :
    memberSum (fun n : G => n) member start numbers =
      ∑ i ∈ Finset.range numbers.length, if member (start + i) then numbers.getD i 0 else 0 := by
  induction numbers generalizing start with
  | nil => rfl
  | cons n rest ih =>
    rw [memberSum, ih, List.length_cons, Finset.sum_range_succ', add_comm]
    simp only [List.getD_cons_succ, List.getD_cons_zero, Nat.add_zero, Nat.add_assoc,
      Nat.add_comm 1]

theorem weightedSum_sum {factors : List Nat} {numbers : List G}
    (lengths : numbers.length = factors.length) :
    weightedSum (fun n : G => n) factors numbers =
      ∑ i ∈ Finset.range numbers.length, factors.getD i 0 • numbers.getD i 0 := by
  induction factors generalizing numbers with
  | nil =>
    have none : numbers = [] := List.length_eq_zero_iff.mp lengths
    simp [none, weightedSum]
  | cons f factors ih =>
    cases numbers with
    | nil => simp at lengths
    | cons n numbers =>
      have fewer : numbers.length = factors.length := by simpa using lengths
      have rest := ih fewer
      simp only [weightedSum, List.zipWith_cons_cons, List.sum_cons, List.length_cons,
        Finset.sum_range_succ', List.getD_cons_succ, List.getD_cons_zero] at rest ⊢
      rw [rest, add_comm]

/-- For any size of the partitions. -/
theorem lincomb_exact (logFloor : Nat → Nat) :
    (∀ (numbers : List G) (factors : List Nat), factors ≠ [] → numbers.length = factors.length →
      lincomb (fun x y : G => x + y) 0 logFloor numbers factors =
        .ok (∑ i ∈ Finset.range numbers.length, factors.getD i 0 • numbers.getD i 0)) ∧
    ∀ (numbers : List G) (subsets : List (Nat → Bool)),
      multisubset2 (fun x y : G => x + y) 0 logFloor numbers subsets = subsets.map fun member =>
        ∑ i ∈ (Finset.range numbers.length).filter fun i => member i, numbers.getD i 0 := by
  constructor
  · intro numbers factors some lengths
    obtain ⟨o, run, value⟩ := lincomb_value (φ := fun n : G => n) (fun x y => x + y) 0
      (fun _ _ => rfl) rfl logFloor some lengths
    rw [run, value, weightedSum_sum lengths]
  · intro numbers subsets
    have sums := multisubset2_sums (φ := fun n : G => n) (fun x y => x + y) 0 (fun _ _ => rfl) rfl
      logFloor numbers subsets
    rw [List.map_id'] at sums
    rw [sums]
    apply List.map_congr_left
    intro member _
    rw [memberSum_sum, Finset.sum_filter]
    simp only [Nat.zero_add]

theorem lincomb_exact_sample : lincomb (fun x y => x + y) 0 (fun _ => 1) [5, 7, 9] [6, 0, 3] =
    .ok (6 * 5 + 0 * 7 + 3 * 9) :=
  (lincomb_exact fun _ => 1).1 [5, 7, 9] [6, 0, 3] (by decide) rfl

end Monoid

end MultiCombs
