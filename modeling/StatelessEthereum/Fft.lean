import StatelessEthereum.PolyUtils
import StatelessEthereum.EvaluationDomain
import Mathlib.Data.List.GetD
import Mathlib.FieldTheory.Finite.Basic
import Mathlib.Tactic.NormNum.Prime

/- The fast Fourier transform on integers modulo a prime (verkle/utils/fft.py),
   without its branch for curve points. -/
namespace Fft
open PythonError PolyUtils EvaluationDomain

/-- `vals[::2]` -/
def everyOther : List Int → List Int
  | a :: _ :: rest => a :: everyOther rest
  | short => short

def simpleFt (vals : List Int) (modulus : Nat) (roots : List Int) : Except PyError (List Int) :=
  let size := roots.length
  if vals.length < size then .error .indexError
  else .ok ((List.range size).map fun i =>
    ((List.range size).map fun j => vals.getD j 0 * roots.getD (i * j % size) 0).sum % modulus)

/-- The loop of `_fft` over the transforms of the two halves. -/
def butterfly (size modulus : Nat) (roots left right : List Int) : Except PyError (List Int) :=
  let half := left.length
  let pairs := min half right.length
  let turned (i : Nat) : Int := right.getD i 0 * roots.getD i 0
  if roots.length < pairs ∨ (0 < pairs ∧ size < half + pairs) then .error .indexError
  else .ok ((List.range size).map fun p =>
    if p < pairs then (left.getD p 0 + turned p) % modulus
    else if half ≤ p ∧ p - half < pairs then (left.getD (p - half) 0 - turned (p - half)) % modulus
    else 0)

/-- `_fft`, with a bound on its depth. -/
def fftRec (modulus : Nat) : Nat → List Int → List Int → Except PyError (List Int)
  | 0, _, _ => .error .diverges
  | depth + 1, vals, roots =>
    if vals = [] then .error .indexError
    else if vals.length ≤ 4 then simpleFt vals modulus roots
    else do
      let left ← fftRec modulus depth (everyOther vals) (everyOther roots)
      let right ← fftRec modulus depth (everyOther vals.tail) (everyOther roots)
      butterfly vals.length modulus roots left right

/-- The loop of `expand_root_of_unity`. After the first turn every power is a
    residue, so a loop of more turns than there are residues never ends. -/
def powersUntilOne (root : Int) (modulus : Nat) : Nat → Int → Except PyError (List Int)
  | 0, _ => .error .diverges
  | turns + 1, last =>
    if last = 1 then .ok [last]
    else do
      let rest ← powersUntilOne root modulus turns (last * root % modulus)
      .ok (last :: rest)

def expandRootOfUnity (root : Int) (modulus : Nat) : Except PyError (List Int) := do
  let rest ← powersUntilOne root modulus (modulus + 2) root
  .ok (1 :: rest)

def fft (vals : List Int) (modulus : Nat) (root : Int) (inverse : Bool) :
    Except PyError (List Int) := do
  let rootz ← expandRootOfUnity root modulus
  let vals := if vals.length + 1 < rootz.length then
    vals ++ List.replicate (rootz.length - vals.length - 1) 0 else vals
  if inverse then do
    let invlen := powMod vals.length (modulus - 2) modulus
    let out ← fftRec modulus (vals.length + 1) vals rootz.tail.reverse
    .ok (out.map fun x => x * invlen % modulus)
  else fftRec modulus (vals.length + 1) vals rootz.dropLast

/- Lists. -/

theorem everyOther_length {l : List Int} {m : Nat} (size : l.length = 2 * m) :
    (everyOther l).length = m := by
  induction m generalizing l with
  | zero =>
    have none : l = [] := by simpa using size
    simp [none, everyOther]
  | succ m ih =>
    match l, size with
    | a :: b :: rest, size =>
      have rest := ih (l := rest) (by simp at size; omega)
      simp [everyOther, rest]

theorem everyOther_tail_length {l : List Int} {m : Nat} (size : l.length = 2 * m) :
    (everyOther l.tail).length = m := by
  induction m generalizing l with
  | zero =>
    have none : l = [] := by simpa using size
    simp [none, everyOther]
  | succ m ih =>
    match l, size with
    | [a, b], size =>
      have last : m = 0 := by simp at size; omega
      simp [everyOther, last]
    | a :: b :: c :: rest, size =>
      have rest := ih (l := c :: rest) (by simp at size ⊢; omega)
      simp only [List.tail_cons] at rest
      simp [everyOther, rest]

theorem everyOther_getD (l : List Int) (i : Nat) : (everyOther l).getD i 0 = l.getD (2 * i) 0 := by
  induction l using everyOther.induct generalizing i with
  | case1 a b rest ih =>
    cases i with
    | zero => rfl
    | succ i => simpa [everyOther, Nat.mul_add] using ih i
  | case2 short few =>
    match short, few with
    | [], _ => simp [everyOther]
    | [a], _ =>
      cases i with
      | zero => rfl
      | succ i => simp [everyOther, Nat.mul_add]
    | a :: b :: rest, few => exact absurd rfl (few a b rest)

theorem everyOther_tail_getD (l : List Int) (i : Nat) :
    (everyOther l.tail).getD i 0 = l.getD (2 * i + 1) 0 := by
  rw [everyOther_getD]
  cases l <;> simp

section Field
variable {modulus : Nat}

/-- The residues of a list, zero past its end. -/
def residues (vals : List Int) (j : Nat) : ZMod modulus := (vals.getD j 0 : Int)

theorem residues_get {vals : List Int} {j : Nat} (inside : j < vals.length) :
    (residues vals j : ZMod modulus) = (vals[j] : Int) := by
  rw [residues, List.getD_eq_getElem _ _ inside]

theorem residues_beyond {vals : List Int} {j : Nat} (beyond : vals.length ≤ j) :
    (residues vals j : ZMod modulus) = 0 := by
  rw [residues, List.getD_eq_default _ _ beyond, Int.cast_zero]

theorem getD_cast (vals : List Int) (j : Nat) :
    (vals.map (Int.cast : Int → ZMod modulus)).getD j 0 = residues vals j := by
  have moved : (vals.map (Int.cast : Int → ZMod modulus)).getD j (0 : Int) = residues vals j :=
    List.getD_map _ _ _
  rwa [Int.cast_zero] at moved

theorem sum_listRange {R : Type} [AddCommMonoid R] (f : Nat → R) (size : Nat) :
    ((List.range size).map f).sum = ∑ j ∈ Finset.range size, f j := rfl

/-- A list of residues as the code keeps them. -/
def Reduced (modulus : Nat) (vals : List Int) : Prop := ∀ c ∈ vals, 0 ≤ c ∧ c < modulus

def Powers (u : ZMod modulus) (roots : List Int) : Prop :=
  ∀ i < roots.length, residues roots i = u ^ i

theorem residues_pad (vals : List Int) (count : Nat) :
    (residues (vals ++ List.replicate count 0) : Nat → ZMod modulus) = residues vals := by
  funext j
  simp only [residues, List.getD_eq_getElem?_getD]
  rcases Nat.lt_or_ge j vals.length with inside | outside
  · rw [List.getElem?_append_left inside]
  · rw [List.getElem?_append_right outside, List.getElem?_eq_none outside, List.getElem?_replicate]
    split <;> simp

theorem residues_map {size i : Nat} (g : Nat → Int) (inside : i < size) :
    (residues ((List.range size).map g) i : ZMod modulus) = (g i : Int) := by
  simp [residues, List.getD_eq_getElem?_getD, inside]

theorem reduced_map [NeZero modulus] {size : Nat} (g : Nat → Int)
    (small : ∀ i < size, 0 ≤ g i ∧ g i < modulus) : Reduced modulus ((List.range size).map g) := by
  intro c member
  obtain ⟨i, inside, rfl⟩ := List.mem_map.mp member
  exact small i (List.mem_range.mp inside)

theorem mod_reduced [NeZero modulus] (x : Int) : 0 ≤ x % modulus ∧ x % modulus < modulus := by
  have positive : (0 : Int) < modulus := by exact_mod_cast Nat.pos_of_ne_zero (NeZero.ne modulus)
  exact ⟨Int.emod_nonneg _ (Int.ne_of_gt positive), Int.emod_lt_of_pos _ positive⟩

/- The transform. -/

structure Transforms (u : ZMod modulus) [Fact modulus.Prime] (n : Nat) (vals out : List Int) :
    Prop where
  length : out.length = n
  reduced : Reduced modulus out
  values : ∀ i < n, residues out i = dft u n (residues vals) i

variable [prime : Fact modulus.Prime]

theorem simpleFt_transforms {u : ZMod modulus} {n : Nat} (whole : u ^ n = 1) {vals roots : List Int}
    (size : vals.length = n) (count : roots.length = n) (powers : Powers u roots) :
    ∃ out, simpleFt vals modulus roots = .ok out ∧ Transforms u n vals out := by
  have positive : NeZero modulus := ⟨prime.out.ne_zero⟩
  refine ⟨_, by rw [simpleFt, if_neg (by omega)], by simp [count],
    reduced_map _ fun _ _ => mod_reduced _, ?_⟩
  intro i inside
  rw [count, residues_map _ inside, ZMod.intCast_mod, Int.cast_list_sum, List.map_map, dft,
    sum_listRange]
  apply Finset.sum_congr rfl
  intro j member
  have within : j < n := Finset.mem_range.mp member
  have turned : residues roots (i * j % n) = u ^ (i * j) := by
    rw [powers _ (by rw [count]; exact Nat.mod_lt _ (by omega))]
    conv => rhs; rw [← Nat.div_add_mod (i * j) n, pow_add, pow_mul, whole, one_pow, one_mul]
  rw [← turned]
  simp [residues]

theorem butterfly_transforms {u : ZMod modulus} {m : Nat} (half : u ^ m = -1)
    {vals roots left right : List Int} (count : roots.length = 2 * m) (powers : Powers u roots)
    (evens : Transforms (u ^ 2) m (everyOther vals) left)
    (odds : Transforms (u ^ 2) m (everyOther vals.tail) right) :
    ∃ out, butterfly (2 * m) modulus roots left right = .ok out ∧
      Transforms u (2 * m) vals out := by
  have positive : NeZero modulus := ⟨prime.out.ne_zero⟩
  refine ⟨_, by
    simp only [butterfly, evens.length, odds.length, Nat.min_self, count]
    rw [if_neg (by omega)], by simp, reduced_map _ fun i _ => ?_, ?_⟩
  · split
    · exact mod_reduced _
    · split
      · exact mod_reduced _
      · have some : (0 : Int) < modulus := by exact_mod_cast prime.out.pos
        exact ⟨Int.le_refl _, some⟩
  have evenPart : dft (u ^ 2) m (residues (everyOther vals)) =
      dft (u ^ 2) m fun j => residues vals (2 * j) :=
    funext fun i => dft_congr (fun j _ => by rw [residues, everyOther_getD]; rfl) i
  have oddPart : dft (u ^ 2) m (residues (everyOther vals.tail)) =
      dft (u ^ 2) m fun j => residues vals (2 * j + 1) :=
    funext fun i => dft_congr (fun j _ => by rw [residues, everyOther_tail_getD]; rfl) i
  have lefts (i : Nat) (inside : i < m) := evens.values i inside
  have rights (i : Nat) (inside : i < m) := odds.values i inside
  rw [evenPart] at lefts
  rw [oddPart] at rights
  intro i inside
  rw [residues_map _ inside]
  by_cases low : i < m
  · have terms : ((left.getD i 0 + right.getD i 0 * roots.getD i 0 : Int) : ZMod modulus) =
        residues left i + residues right i * residues roots i := by push_cast; rfl
    rw [if_pos low, ZMod.intCast_mod, terms, lefts i low, rights i low, powers i (by omega),
      dft_split]
    ring
  · obtain ⟨k, rfl⟩ : ∃ k, i = k + m := ⟨i - m, by omega⟩
    have below : k < m := by omega
    have terms : ((left.getD k 0 - right.getD k 0 * roots.getD k 0 : Int) : ZMod modulus) =
        residues left k - residues right k * residues roots k := by push_cast; rfl
    rw [if_neg low, if_pos (by omega), Nat.add_sub_cancel, ZMod.intCast_mod, terms, lefts k below,
      rights k below, powers k (by omega), dft_upper half]
    ring

theorem powers_everyOther {u : ZMod modulus} {m : Nat} {roots : List Int}
    (count : roots.length = 2 * m) (powers : Powers u roots) :
    Powers (u ^ 2) (everyOther roots) := by
  intro i inside
  rw [everyOther_length count] at inside
  have root := powers (2 * i) (by omega)
  rw [residues, everyOther_getD, ← pow_mul]
  exact root

/-- `_fft` on a power of two of values. -/
theorem fftRec_transforms {u : ZMod modulus} (k : Nat) (root : IsPrimitiveRoot u (2 ^ k))
    {vals roots : List Int} (size : vals.length = 2 ^ k) (count : roots.length = 2 ^ k)
    (powers : Powers u roots) {depth : Nat} (enough : k < depth) :
    ∃ out, fftRec modulus depth vals roots = .ok out ∧ Transforms u (2 ^ k) vals out := by
  induction k generalizing u vals roots depth with
  | zero =>
    obtain ⟨depth, rfl⟩ : ∃ d, depth = d + 1 := ⟨depth - 1, by omega⟩
    have some : vals ≠ [] := by intro none; simp [none] at size
    rw [fftRec, if_neg some, if_pos (by rw [size]; norm_num)]
    exact simpleFt_transforms root.pow_eq_one size count powers
  | succ k ih =>
    obtain ⟨depth, rfl⟩ : ∃ d, depth = d + 1 := ⟨depth - 1, by omega⟩
    have double : 2 ^ (k + 1) = 2 * 2 ^ k := by ring
    have some : vals ≠ [] := by
      intro none
      have positive := Nat.two_pow_pos (k + 1)
      rw [none, List.length_nil] at size
      omega
    rw [fftRec, if_neg some]
    split
    · exact simpleFt_transforms root.pow_eq_one size count powers
    · rw [double] at size count root ⊢
      have square : IsPrimitiveRoot (u ^ 2) (2 ^ k) :=
        root.pow (by have := Nat.two_pow_pos k; omega) rfl
      have turned := powers_everyOther count powers
      have few := everyOther_length count
      have deep : k < depth := by omega
      obtain ⟨left, leftRun, evens⟩ := ih square (everyOther_length size) few turned deep
      obtain ⟨right, rightRun, odds⟩ := ih square (everyOther_tail_length size) few turned deep
      obtain ⟨out, run, transforms⟩ :=
        butterfly_transforms (half_turn root (Nat.two_pow_pos k)) count powers evens odds
      exact ⟨out, by simp only [leftRun, rightRun, size, bind, Except.bind, run], transforms⟩

/- The roots. -/

theorem residue_one {c : Int} (small : 0 ≤ c ∧ c < modulus) (one : (c : ZMod modulus) = 1) :
    c = 1 := by
  have same : (c : ZMod modulus) = ((1 : Int) : ZMod modulus) := by rw [one, Int.cast_one]
  have congruent := (ZMod.intCast_eq_intCast_iff' c 1 modulus).mp same
  have large : (1 : Int) < modulus := by exact_mod_cast prime.out.one_lt
  rwa [Int.emod_eq_of_lt small.1 small.2, Int.emod_eq_of_lt (by omega) large] at congruent

/-- The loop of the powers stops at 1 itself: a root of order one has to be that. -/
def Canonical (root : Int) (modulus k : Nat) : Prop := 0 < k ∨ (0 ≤ root ∧ root < modulus)

theorem powersUntilOne_powers {root : Int} {n : Nat}
    (primitive : IsPrimitiveRoot (root : ZMod modulus) n) (i : Nat) (within : i < n) (last : Int)
    (reached : (last : ZMod modulus) = root ^ (i + 1)) (stops : i + 1 = n → last = 1)
    {turns : Nat} (enough : n ≤ i + turns) :
    ∃ rest, powersUntilOne root modulus turns last = .ok rest ∧ rest.length = n - i ∧
      ∀ j < rest.length, residues rest j = (root : ZMod modulus) ^ (i + 1 + j) := by
  have positive : NeZero modulus := ⟨prime.out.ne_zero⟩
  induction turns generalizing i last with
  | zero => omega
  | succ turns ih =>
    rw [powersUntilOne]
    split
    · rename_i one
      have whole : n ∣ i + 1 := primitive.dvd_of_pow_eq_one _ (by rw [← reached, one]; simp)
      have full := Nat.le_of_dvd (by omega) whole
      refine ⟨_, rfl, by simp; omega, ?_⟩
      intro j inside
      have first : j = 0 := by simpa using inside
      rw [first, Nat.add_zero, ← reached]
      rfl
    · rename_i more
      have next : i + 1 < n := by
        by_contra full
        exact more (stops (by omega))
      have power : ((last * root % modulus : Int) : ZMod modulus) = root ^ (i + 1 + 1) := by
        rw [ZMod.intCast_mod, Int.cast_mul, reached, ← pow_succ]
      obtain ⟨rest, run, size, values⟩ := ih (i + 1) next (last * root % modulus) power
        (fun full => residue_one (mod_reduced _) (by rw [power, full, primitive.pow_eq_one]))
        (by omega)
      refine ⟨last :: rest, by simp only [run, bind, Except.bind], by simp; omega, ?_⟩
      intro j inside
      cases j with
      | zero => rw [Nat.add_zero, ← reached]; rfl
      | succ j =>
        have value := values j (by simpa using inside)
        rw [show i + 1 + (j + 1) = i + 1 + 1 + j by omega, ← value]
        simp [residues]

theorem expandRootOfUnity_powers {root : Int} {n : Nat} (some : 0 < n)
    (primitive : IsPrimitiveRoot (root : ZMod modulus) n) (stops : n = 1 → root = 1) :
    ∃ rootz, expandRootOfUnity root modulus = .ok rootz ∧ rootz.length = n + 1 ∧
      Powers (root : ZMod modulus) rootz := by
  have few : n ≤ modulus := by
    have positive : NeZero modulus := ⟨prime.out.ne_zero⟩
    have unit : (root : ZMod modulus) ≠ 0 := primitive.ne_zero (by omega)
    have fermat := ZMod.pow_card_sub_one_eq_one unit
    have large := prime.out.one_lt
    have divides := primitive.dvd_of_pow_eq_one _ fermat
    have le := Nat.le_of_dvd (by omega) divides
    omega
  obtain ⟨rest, run, size, values⟩ := powersUntilOne_powers primitive 0 some root (by simp)
    (fun one => stops (by omega)) (show n ≤ 0 + (modulus + 2) by omega)
  refine ⟨1 :: rest, by simp only [expandRootOfUnity, run, bind, Except.bind], by simp [size], ?_⟩
  intro j inside
  cases j with
  | zero => simp [residues]
  | succ j =>
    have value := values j (by simpa using inside)
    rw [show 0 + 1 + j = j + 1 by omega] at value
    rw [← value]
    simp [residues]

omit prime in
theorem powers_dropLast {u : ZMod modulus} {rootz : List Int} (powers : Powers u rootz) :
    Powers u rootz.dropLast := by
  intro i inside
  rw [List.length_dropLast] at inside
  rw [← powers i (by omega)]
  simp only [residues, List.getD_eq_getElem?_getD, List.getElem?_dropLast]
  rw [if_pos inside]

/-- `rootz[:0:-1]`: the powers of the inverse. -/
theorem powers_reversed {u : ZMod modulus} {n : Nat} (whole : u ^ n = 1) {rootz : List Int}
    (count : rootz.length = n + 1) (powers : Powers u rootz) :
    Powers u⁻¹ rootz.tail.reverse := by
  intro i inside
  rw [List.length_reverse, List.length_tail, count, Nat.add_sub_cancel] at inside
  have place : residues rootz.tail.reverse i = (residues rootz (n - i) : ZMod modulus) := by
    have mirrored : rootz.tail.length - 1 - i + 1 = n - i := by
      rw [List.length_tail, count]
      omega
    simp only [residues, List.getD_eq_getElem?_getD]
    rw [List.getElem?_reverse (by rw [List.length_tail, count]; omega), List.getElem?_tail, mirrored]
  have turn : u ^ (n - i) * u ^ i = 1 := by rw [← pow_add, Nat.sub_add_cancel (by omega), whole]
  rw [place, powers _ (by omega), inv_pow]
  exact eq_inv_of_mul_eq_one_left turn

/- The whole function. -/

theorem powMod_inverse {n : Nat} (unit : (n : ZMod modulus) ≠ 0) :
    ((powMod n (modulus - 2) modulus : Nat) : ZMod modulus) = (n : ZMod modulus)⁻¹ := by
  have fermat := ZMod.pow_card_sub_one_eq_one unit
  have large := prime.out.one_lt
  rw [powMod_cast]
  apply eq_inv_of_mul_eq_one_left
  rw [← pow_succ, show modulus - 2 + 1 = modulus - 1 by omega, fermat]

omit prime in
theorem padded (modulus : Nat) {vals rootz : List Int} {n : Nat} (few : vals.length ≤ n)
    (count : rootz.length = n + 1) :
    ∃ full : List Int, (if vals.length + 1 < rootz.length then
        vals ++ List.replicate (rootz.length - vals.length - 1) 0 else vals) = full ∧
      full.length = n ∧ (residues full : Nat → ZMod modulus) = residues vals := by
  split
  · exact ⟨_, rfl, by simp; omega, residues_pad _ _⟩
  · exact ⟨vals, rfl, by omega, rfl⟩

omit prime in
theorem reduced_unique {xs ys : List Int} (left : Reduced modulus xs) (right : Reduced modulus ys)
    (lengths : xs.length = ys.length)
    (same : ∀ j < xs.length, (residues xs j : ZMod modulus) = residues ys j) : xs = ys := by
  apply List.ext_getElem lengths
  intro j inside inside'
  have entry := same j inside
  rw [residues_get inside, residues_get inside'] at entry
  have congruent := (ZMod.intCast_eq_intCast_iff' _ _ modulus).mp entry
  have low := left _ (List.getElem_mem inside)
  have high := right _ (List.getElem_mem inside')
  rwa [Int.emod_eq_of_lt low.1 low.2, Int.emod_eq_of_lt high.1 high.2] at congruent

def zeroPadded (modulus n : Nat) (vals : List Int) : List Int :=
  vals.map (· % (modulus : Int)) ++ List.replicate (n - vals.length) 0

omit prime in
theorem zeroPadded_residues (n : Nat) (vals : List Int) (j : Nat) :
    (residues (zeroPadded modulus n vals) j : ZMod modulus) = residues vals j := by
  rw [zeroPadded, residues_pad]
  simp only [residues, List.getD_eq_getElem?_getD, List.getElem?_map]
  cases vals[j]? with
  | none => rfl
  | some c => simp

theorem zeroPadded_reduced (n : Nat) (vals : List Int) :
    Reduced modulus (zeroPadded modulus n vals) := by
  have positive : NeZero modulus := ⟨prime.out.ne_zero⟩
  intro c member
  rcases List.mem_append.mp member with inside | behind
  · obtain ⟨x, _, rfl⟩ := List.mem_map.mp inside
    exact mod_reduced x
  · have large : (0 : Int) < modulus := by exact_mod_cast prime.out.pos
    rw [List.eq_of_mem_replicate behind]
    exact ⟨Int.le_refl 0, large⟩

section Whole
variable {root : Int} {k : Nat} (primitive : IsPrimitiveRoot (root : ZMod modulus) (2 ^ k))
  (canonical : Canonical root modulus k) {vals : List Int} (few : vals.length ≤ 2 ^ k)
include primitive canonical

theorem canonical_powers : ∃ rootz, expandRootOfUnity root modulus = .ok rootz ∧
    rootz.length = 2 ^ k + 1 ∧ Powers (root : ZMod modulus) rootz := by
  apply expandRootOfUnity_powers (Nat.two_pow_pos k) primitive
  intro one
  rcases canonical with more | small
  · have two := Nat.one_lt_two_pow (Nat.ne_of_gt more)
    omega
  · exact residue_one small (by rw [← primitive.pow_eq_one, one, pow_one])

include few

/-- `fft` is the discrete Fourier transform. -/
theorem fft_forward : ∃ out, fft vals modulus root false = .ok out ∧
    Transforms (root : ZMod modulus) (2 ^ k) vals out := by
  obtain ⟨rootz, expanded, count, powers⟩ := canonical_powers primitive canonical
  obtain ⟨full, filled, size, same⟩ := padded modulus few count
  have deep : k < full.length + 1 := by
    have bound := Nat.lt_two_pow_self (n := k)
    omega
  have turned : rootz.dropLast.length = 2 ^ k := by simp [count]
  obtain ⟨out, run, length, reduced, values⟩ := fftRec_transforms k primitive size turned
    (powers_dropLast powers) deep
  refine ⟨out, ?_, length, reduced, by rw [← same]; exact values⟩
  simp only [fft, expanded, bind, Except.bind, filled, run, Bool.false_eq_true, ↓reduceIte]

/-- The inverse transform gives the coefficients of the polynomial that takes the
    values at the powers of the root. -/
theorem fft_inverse : ∃ out, fft vals modulus root true = .ok out ∧ out.length = 2 ^ k ∧
    Reduced modulus out ∧ ∀ j < 2 ^ k, residues out j =
      (interp (root : ZMod modulus) (2 ^ k) (residues vals)).coeff j := by
  have positive : NeZero modulus := ⟨prime.out.ne_zero⟩
  obtain ⟨rootz, expanded, count, powers⟩ := canonical_powers primitive canonical
  obtain ⟨full, filled, size, same⟩ := padded modulus few count
  have deep : k < full.length + 1 := by
    have bound := Nat.lt_two_pow_self (n := k)
    omega
  have turned : rootz.tail.reverse.length = 2 ^ k := by simp [count]
  obtain ⟨out, run, length, reduced, values⟩ := fftRec_transforms k primitive.inv size turned
    (powers_reversed primitive.pow_eq_one count powers) deep
  have invlen := powMod_inverse (order_unit primitive (Nat.two_pow_pos k))
  refine ⟨out.map fun x => x * powMod (2 ^ k) (modulus - 2) modulus % modulus, ?_,
    by simp [length], ?_, ?_⟩
  · rw [← size]
    simp only [fft, expanded, bind, Except.bind, filled, run, ↓reduceIte]
  · intro c member
    obtain ⟨x, _, rfl⟩ := List.mem_map.mp member
    exact mod_reduced _
  · intro j inside
    rw [interp_coeff primitive _ inside, ← same, ← values j inside, ← invlen, mul_comm]
    simp only [residues, List.getD_eq_getElem?_getD, List.getElem?_map]
    rw [List.getElem?_eq_getElem (by omega)]
    simp

theorem inverse_forward {out : List Int}
    (transforms : Transforms (root : ZMod modulus) (2 ^ k) vals out) :
    fft out modulus root true = .ok (zeroPadded modulus (2 ^ k) vals) := by
  have size := transforms.length
  obtain ⟨back, run, count, reduced, values⟩ :=
    fft_inverse primitive canonical (show out.length ≤ 2 ^ k by omega)
  have same : back = zeroPadded modulus (2 ^ k) vals := by
    apply reduced_unique reduced (zeroPadded_reduced _ _)
    · rw [count, zeroPadded, List.length_append, List.length_map, List.length_replicate]
      omega
    · intro j inside
      rw [count] at inside
      rw [values j inside, interp_congr primitive transforms.values, interp_dft primitive _ inside,
        zeroPadded_residues]
  rw [run, same]

theorem forward_inverse {coeffs : List Int} (size : coeffs.length = 2 ^ k)
    (values : ∀ j < 2 ^ k, residues coeffs j =
      (interp (root : ZMod modulus) (2 ^ k) (residues vals)).coeff j) :
    fft coeffs modulus root false = .ok (zeroPadded modulus (2 ^ k) vals) := by
  obtain ⟨out, run, transforms⟩ := fft_forward primitive canonical (show coeffs.length ≤ 2 ^ k by omega)
  have same : out = zeroPadded modulus (2 ^ k) vals := by
    apply reduced_unique transforms.reduced (zeroPadded_reduced _ _)
    · rw [transforms.length, zeroPadded, List.length_append, List.length_map, List.length_replicate]
      omega
    · intro i inside
      rw [transforms.length] at inside
      rw [transforms.values i inside, dft_congr values, dft_interp primitive _ inside,
        zeroPadded_residues]
  rw [run, same]

end Whole

/-- `fft` is the discrete Fourier transform and undoes itself. -/
theorem fft_exact {root : Int} {k : Nat} (order : orderOf (root : ZMod modulus) = 2 ^ k)
    (canonical : Canonical root modulus k) {vals : List Int} (few : vals.length ≤ 2 ^ k) :
    ∃ out coeffs, fft vals modulus root false = .ok out ∧ fft vals modulus root true = .ok coeffs ∧
      (out.length = 2 ^ k ∧ ∀ i < 2 ^ k, ((out.getD i 0 : Int) : ZMod modulus) =
        ∑ j ∈ Finset.range (2 ^ k), ((vals.getD j 0 : Int) : ZMod modulus) * root ^ (i * j)) ∧
      (coeffs.length = 2 ^ k ∧ ∃ p : Polynomial (ZMod modulus), p.degree < (2 ^ k : Nat) ∧
        (∀ i < 2 ^ k, p.eval ((root : ZMod modulus) ^ i) = (vals.getD i 0 : Int)) ∧
        ∀ j < 2 ^ k, ((coeffs.getD j 0 : Int) : ZMod modulus) = p.coeff j) ∧
      fft out modulus root true = .ok (zeroPadded modulus (2 ^ k) vals) ∧
      fft coeffs modulus root false = .ok (zeroPadded modulus (2 ^ k) vals) := by
  have primitive := IsPrimitiveRoot.iff_orderOf.mpr order
  obtain ⟨out, forward, transforms⟩ := fft_forward primitive canonical few
  obtain ⟨coeffs, inverse, size, _, coefficients⟩ := fft_inverse primitive canonical few
  have interpolates : ∃ p : Polynomial (ZMod modulus), p.degree < (2 ^ k : Nat) ∧
      (∀ i < 2 ^ k, p.eval ((root : ZMod modulus) ^ i) = (vals.getD i 0 : Int)) ∧
      ∀ j < 2 ^ k, ((coeffs.getD j 0 : Int) : ZMod modulus) = p.coeff j :=
    ⟨_, interp_degree primitive _, fun i inside => interp_eval primitive inside _, coefficients⟩
  exact ⟨out, coeffs, forward, inverse, ⟨transforms.length, transforms.values⟩,
    ⟨size, interpolates⟩, inverse_forward primitive canonical few transforms,
    forward_inverse primitive canonical few size coefficients⟩

theorem nine_order : orderOf (((9 : Int)) : ZMod 17) = 2 ^ 3 :=
  orderOf_eq_prime_pow (by decide) (by decide)

theorem fft_exact_sample : ∃ out coeffs, fft [7, -1, 3, 30, 2] 17 9 false = .ok out ∧
    fft [7, -1, 3, 30, 2] 17 9 true = .ok coeffs ∧
    fft out 17 9 true = .ok [7, 16, 3, 13, 2, 0, 0, 0] ∧
    fft coeffs 17 9 false = .ok [7, 16, 3, 13, 2, 0, 0, 0] := by
  have prime : Fact (Nat.Prime 17) := ⟨by norm_num⟩
  obtain ⟨out, coeffs, forward, inverse, _, _, back, again⟩ :=
    fft_exact nine_order (Or.inl (by decide)) (show [7, -1, 3, 30, 2].length ≤ 2 ^ 3 by decide)
  exact ⟨out, coeffs, forward, inverse, back, again⟩

end Field

end Fft
