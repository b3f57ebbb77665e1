import StatelessEthereum.PythonError
import Mathlib.Algebra.BigOperators.Intervals
import Mathlib.Data.Finset.Card
import Mathlib.Data.Finset.Sort

/- Subset sums that share their pairs (`multisubset` of verkle/utils/multicombs.py).
   The numbers are of any type with an addition and a zero. -/
namespace MultiSubset
open PythonError
variable {G : Type} (adder : G → G → G) (zero : G)

/-- The three variables of the loop. The dictionary is in order of insertion. -/
structure State (G : Type) where
  numbers : List G
  subsets : List (Nat × Finset Nat)
  output : List G

/-- `order` is the order in which the interpreter goes through a set. -/
def subsetPairs (order : Finset Nat → List Nat) (subset : Finset Nat) : List (Nat × Nat) :=
  (order subset).flatMap fun x => ((order subset).filter fun y => y > x).map fun y => (x, y)

def allPairs (order : Finset Nat → List Nat) (subsets : List (Nat × Finset Nat)) : List (Nat × Nat) :=
  subsets.flatMap fun e => subsetPairs order e.2

/-- The loop over the subsets for one pair whose sum is `numbers[last]`. -/
def rewriteSubsets (x y last : Nat) (sum : G) :
    List (Nat × Finset Nat) → List G → List (Nat × Finset Nat) × List G
  | [], output => ([], output)
  | (key, subset) :: subsets, output =>
    if x ∈ subset ∧ y ∈ subset then
      let rest := (subset.erase x).erase y
      if rest = ∅ then rewriteSubsets x y last sum subsets (output.set key sum)
      else
        let (subsets, output) := rewriteSubsets x y last sum subsets output
        ((key, insert last rest) :: subsets, output)
    else
      let (subsets, output) := rewriteSubsets x y last sum subsets output
      ((key, subset) :: subsets, output)

def addPair (x y : Nat) (st : State G) : Except PyError (State G) :=
  match st.numbers[x]?, st.numbers[y]? with
  | some a, some b =>
    let sum := adder a b
    let (subsets, output) := rewriteSubsets x y st.numbers.length sum st.subsets st.output
    .ok ⟨st.numbers ++ [sum], subsets, output⟩
  | _, _ => .error .indexError

/-- The loop over the pairs, with the indices used in this round. -/
def addPairs : List (Nat × Nat) → List Nat → State G → Except PyError (State G)
  | [], _, st => .ok st
  | (x, y) :: pairs, used, st =>
    if x ∈ used ∨ y ∈ used then addPairs pairs used st
    else do
      let st ← addPair adder x y st
      addPairs pairs (x :: y :: used) st

/-- `output[key] = adder(output[key], numbers[index])` for every index. -/
def addUp (numbers : List G) : List Nat → G → Except PyError G
  | [], total => .ok total
  | index :: indices, total =>
    match numbers[index]? with
    | some n => addUp numbers indices (adder total n)
    | none => .error .indexError

def finish (order : Finset Nat → List Nat) (numbers : List G) :
    List (Nat × Finset Nat) → List G → Except PyError (List G)
  | [], output => .ok output
  | (key, subset) :: subsets, output => do
    let total ← addUp adder numbers (order subset) (output.getD key zero)
    finish order numbers subsets (output.set key total)

/-- As many rounds as the first argument says, after which the function ends without
    a value. `sorted` arranges the pairs by their counts, and `cutoff` is the number
    of pairs in a round for that many numbers. -/
def rounds (cutoff : Nat → Nat)
    (sorted : (Nat × Nat → Nat) → List (Nat × Nat) → List (Nat × Nat))
    (order : Finset Nat → List Nat) : Nat → State G → Except PyError (Option (List G))
  | 0, _ => .ok none
  | n + 1, st =>
    let pairs := allPairs order st.subsets
    match (sorted (fun p => pairs.count p) pairs.eraseDups).take (cutoff st.numbers.length) with
    | [] => do
      let output ← finish adder zero order st.numbers st.subsets st.output
      .ok (some output)
    | pair :: more => do
      let st ← addPairs adder (pair :: more) [] st
      rounds cutoff sorted order n st

def multisubset (cutoff : Nat → Nat)
    (sorted : (Nat × Nat → Nat) → List (Nat × Nat) → List (Nat × Nat))
    (order : Finset Nat → List Nat) (roundcount : Nat) (numbers : List G)
    (subsets : List (List Nat)) : Except PyError (Option (List G)) :=
  -- `math.log(0)`
  if numbers = [] ∧ roundcount ≠ 0 then .error (.valueError "")
  else rounds adder zero cutoff sorted order roundcount
    ⟨numbers, subsets.zipIdx.map fun e => (e.2, e.1.toFinset), subsets.map fun _ => zero⟩

/- What the loop keeps. -/
section Sums
variable {M : Type} [AddCommMonoid M]

def indexSum (numbers : List M) (subset : Finset Nat) : M := ∑ i ∈ subset, numbers.getD i 0

/-- A subset still to be summed: its sum is the one asked for, and nothing of it has
    been put out. -/
structure Live (targets numbers output : List M) (e : Nat × Finset Nat) : Prop where
  key : e.1 < targets.length
  inside : ∀ i ∈ e.2, i < numbers.length
  untouched : output.getD e.1 0 = 0
  sum : indexSum numbers e.2 = targets.getD e.1 0

structure Invariant (targets : List M) (st : State M) : Prop where
  size : st.output.length = targets.length
  keys : (st.subsets.map Prod.fst).Nodup
  live : ∀ e ∈ st.subsets, Live targets st.numbers st.output e
  settled : ∀ key < targets.length, key ∉ st.subsets.map Prod.fst →
    st.output.getD key 0 = targets.getD key 0

def weight (subsets : List (Nat × Finset Nat)) : Nat := (subsets.map fun e => e.2.card).sum

@[simp] theorem weight_nil : weight [] = 0 := rfl

@[simp] theorem weight_cons (e : Nat × Finset Nat) (subsets : List (Nat × Finset Nat)) :
    weight (e :: subsets) = e.2.card + weight subsets := rfl

theorem getD_set_same {output : List M} {key : Nat} (inside : key < output.length) (v : M) :
    (output.set key v).getD key 0 = v := by
  simp [List.getD_eq_getElem?_getD, inside]

theorem getD_set_other {key key' : Nat} (other : key' ≠ key) (output : List M) (v : M) :
    (output.set key v).getD key' 0 = output.getD key' 0 := by
  simp [List.getD_eq_getElem?_getD, Ne.symm other]

/-- A number appended behind those of a sum changes nothing. -/
theorem indexSum_grown {numbers : List M} {subset : Finset Nat}
    (inside : ∀ i ∈ subset, i < numbers.length) (v : M) :
    indexSum (numbers ++ [v]) subset = indexSum numbers subset := by
  refine Finset.sum_congr rfl fun i member => ?_
  rw [List.getD_eq_getElem?_getD, List.getElem?_append_left (inside i member),
    List.getD_eq_getElem?_getD]

theorem indexSum_pair (numbers : List M) {subset : Finset Nat} {x y : Nat} (apart : x ≠ y)
    (hx : x ∈ subset) (hy : y ∈ subset) : indexSum numbers subset =
      numbers.getD x 0 + numbers.getD y 0 + indexSum numbers ((subset.erase x).erase y) := by
  rw [indexSum, ← Finset.add_sum_erase subset _ hx,
    ← Finset.add_sum_erase (subset.erase x) _ (Finset.mem_erase.mpr ⟨Ne.symm apart, hy⟩), add_assoc]
  rfl

theorem Live.outside {targets numbers output output' : List M} {e : Nat × Finset Nat}
    (live : Live targets numbers output e) (same : output'.getD e.1 0 = output.getD e.1 0) :
    Live targets numbers output' e :=
  ⟨live.key, live.inside, same.trans live.untouched, live.sum⟩

theorem Live.grown {targets numbers output : List M} {e : Nat × Finset Nat}
    (live : Live targets numbers output e) (v : M) : Live targets (numbers ++ [v]) output e := by
  refine ⟨live.key, fun i member => ?_, live.untouched, (indexSum_grown live.inside v).trans live.sum⟩
  rw [List.length_append]
  exact Nat.lt_add_right _ (live.inside i member)

theorem Live.whole {targets numbers output : List M} {key x y : Nat} {subset : Finset Nat}
    (live : Live targets numbers output (key, subset)) (apart : x ≠ y) (hx : x ∈ subset)
    (hy : y ∈ subset) (empty : (subset.erase x).erase y = ∅) :
    numbers.getD x 0 + numbers.getD y 0 = targets.getD key 0 := by
  have sum := (indexSum_pair numbers apart hx hy).symm.trans live.sum
  rw [empty] at sum
  simpa [indexSum] using sum

/-- The pair in a larger subset gives way to the index of its sum. -/
theorem Live.merged {targets numbers output : List M} {key x y : Nat} {subset : Finset Nat}
    (live : Live targets numbers output (key, subset)) (apart : x ≠ y) (hx : x ∈ subset)
    (hy : y ∈ subset) : Live targets (numbers ++ [numbers.getD x 0 + numbers.getD y 0]) output
      (key, insert numbers.length ((subset.erase x).erase y)) := by
  have below : ∀ i ∈ (subset.erase x).erase y, i < numbers.length := fun i member =>
    live.inside i (Finset.mem_of_mem_erase (Finset.mem_of_mem_erase member))
  have fresh : numbers.length ∉ (subset.erase x).erase y := fun member =>
    Nat.lt_irrefl _ (below _ member)
  refine ⟨live.key, fun i member => ?_, live.untouched, ?_⟩
  · rw [List.length_append, List.length_singleton]
    rcases Finset.mem_insert.mp member with rfl | old
    · exact Nat.lt_succ_self _
    · exact Nat.lt_succ_of_lt (below i old)
  · have last : (numbers ++ [numbers.getD x 0 + numbers.getD y 0]).getD numbers.length 0 =
        numbers.getD x 0 + numbers.getD y 0 := by simp [List.getD_eq_getElem?_getD]
    have rest := indexSum_grown below (numbers.getD x 0 + numbers.getD y 0)
    rw [indexSum, Finset.sum_insert fresh, last, ← indexSum, rest, ← indexSum_pair numbers apart hx hy]
    exact live.sum

theorem card_pair {subset : Finset Nat} {x y : Nat} (apart : x ≠ y) (hx : x ∈ subset)
    (hy : y ∈ subset) : ((subset.erase x).erase y).card + 2 = subset.card := by
  have first := Finset.card_erase_add_one hx
  have second := Finset.card_erase_add_one (Finset.mem_erase.mpr ⟨Ne.symm apart, hy⟩)
  omega

/-- What the loop over the subsets makes of them and the output. -/
structure Rewritten (targets numbers output : List M) (x y : Nat) (subsets : List (Nat × Finset Nat))
    (result : List (Nat × Finset Nat) × List M) : Prop where
  size : result.2.length = output.length
  frame : ∀ key, key ∉ subsets.map Prod.fst → result.2.getD key 0 = output.getD key 0
  keys : (result.1.map Prod.fst).Sublist (subsets.map Prod.fst)
  live : ∀ e ∈ result.1, Live targets numbers result.2 e
  settled : ∀ key ∈ subsets.map Prod.fst, key ∉ result.1.map Prod.fst →
    result.2.getD key 0 = targets.getD key 0
  lighter : weight result.1 ≤ weight subsets
  less : (∃ e ∈ subsets, x ∈ e.2 ∧ y ∈ e.2) → weight result.1 < weight subsets

/-- The first subset is kept, possibly in another form. -/
theorem Rewritten.keep {targets numbers output : List M} {x y key : Nat} {subset subset' : Finset Nat}
    {subsets : List (Nat × Finset Nat)} {result : List (Nat × Finset Nat) × List M}
    (rest : Rewritten targets numbers output x y subsets result)
    (fresh : key ∉ subsets.map Prod.fst) (live : Live targets numbers output (key, subset'))
    (lighter : subset'.card ≤ subset.card)
    (less : x ∈ subset ∧ y ∈ subset → subset'.card < subset.card) :
    Rewritten targets numbers output x y ((key, subset) :: subsets)
      ((key, subset') :: result.1, result.2) where
  size := rest.size
  frame := fun other absent => rest.frame other fun later => absent (List.mem_cons_of_mem _ later)
  keys := rest.keys.cons_cons key
  live := by
    intro e member
    rcases List.mem_cons.mp member with rfl | later
    · exact live.outside (rest.frame key fresh)
    · exact rest.live e later
  settled := by
    intro other member absent
    refine rest.settled other ?_ fun later => absent (List.mem_cons_of_mem _ later)
    exact (List.mem_cons.mp member).resolve_left fun same => absent (same ▸ List.mem_cons_self)
  lighter := by
    have below := rest.lighter
    simp only [weight_cons]
    omega
  less := by
    rintro ⟨e, member, both⟩
    have below := rest.lighter
    simp only [weight_cons]
    rcases List.mem_cons.mp member with rfl | later
    · have here := less both
      omega
    · have there := rest.less ⟨e, later, both⟩
      omega

/-- The first subset is the pair, and its sum is put out. -/
theorem Rewritten.drop {targets numbers output : List M} {x y key : Nat} {subset : Finset Nat}
    {subsets : List (Nat × Finset Nat)} {result : List (Nat × Finset Nat) × List M} {v : M}
    (rest : Rewritten targets numbers (output.set key v) x y subsets result)
    (fresh : key ∉ subsets.map Prod.fst) (inside : key < output.length)
    (value : v = targets.getD key 0) (some : 0 < subset.card) :
    Rewritten targets numbers output x y ((key, subset) :: subsets) result where
  size := rest.size.trans (List.length_set ..)
  frame := by
    intro other absent
    rw [List.map_cons, List.mem_cons, not_or] at absent
    rw [rest.frame other absent.2, getD_set_other absent.1]
  keys := rest.keys.cons key
  live := rest.live
  settled := by
    intro other member absent
    rcases List.mem_cons.mp member with same | later
    · have same : other = key := same
      rw [same, rest.frame key fresh, getD_set_same inside, value]
    · exact rest.settled other later absent
  lighter := by
    have below := rest.lighter
    simp only [weight_cons]
    omega
  less := by
    intro _
    have below := rest.lighter
    simp only [weight_cons]
    omega

theorem rewriteSubsets_spec {targets numbers : List M} {x y : Nat} (apart : x ≠ y)
    (subsets : List (Nat × Finset Nat)) (output : List M) (keys : (subsets.map Prod.fst).Nodup)
    (size : output.length = targets.length)
    (live : ∀ e ∈ subsets, Live targets numbers output e) :
    Rewritten targets (numbers ++ [numbers.getD x 0 + numbers.getD y 0]) output x y subsets
      (rewriteSubsets x y numbers.length (numbers.getD x 0 + numbers.getD y 0) subsets output) := by
  induction subsets generalizing output with
  | nil => exact ⟨rfl, fun _ _ => rfl, .slnil, by simp [rewriteSubsets], by simp, Nat.le_refl _, by simp⟩
  | cons e subsets ih =>
    obtain ⟨key, subset⟩ := e
    obtain ⟨fresh, keys⟩ := List.nodup_cons.mp keys
    have here := live (key, subset) List.mem_cons_self
    have later : ∀ e ∈ subsets, Live targets numbers output e := fun e member =>
      live e (List.mem_cons_of_mem _ member)
    rw [rewriteSubsets]
    split
    · rename_i both
      have card := card_pair apart both.1 both.2
      simp only
      split
      · rename_i empty
        have value := here.whole apart both.1 both.2 empty
        have inside : key < output.length := size ▸ here.key
        refine Rewritten.drop (ih _ keys ((List.length_set ..).trans size) fun e member => ?_) fresh
          inside value (by omega)
        have named : e.1 ∈ subsets.map Prod.fst := List.mem_map_of_mem member
        have other : e.1 ≠ key := fun same => fresh (same ▸ named)
        exact (later e member).outside (getD_set_other other output _)
      · have merged := here.merged apart both.1 both.2
        have least := Finset.card_insert_le numbers.length ((subset.erase x).erase y)
        exact (ih output keys size later).keep fresh merged (by omega) (by omega)
    · rename_i not
      exact (ih output keys size later).keep fresh (here.grown _) (Nat.le_refl _)
        fun both => absurd both not

theorem addPair_spec {targets : List M} {st : State M} (invariant : Invariant targets st) {x y : Nat}
    (apart : x ≠ y) (hx : x < st.numbers.length) (hy : y < st.numbers.length) :
    ∃ st', addPair (fun a b => a + b) x y st = .ok st' ∧ Invariant targets st' ∧
      st'.numbers.length = st.numbers.length + 1 ∧ weight st'.subsets ≤ weight st.subsets ∧
      ((∃ e ∈ st.subsets, x ∈ e.2 ∧ y ∈ e.2) → weight st'.subsets < weight st.subsets) := by
  have entry : ∀ i < st.numbers.length, st.numbers[i]? = some (st.numbers.getD i 0) := by
    intro i inside
    rw [List.getD_eq_getElem?_getD, List.getElem?_eq_getElem inside, Option.getD_some]
  have rewritten := rewriteSubsets_spec apart st.subsets st.output invariant.keys invariant.size
    invariant.live
  refine ⟨_, by rw [addPair, entry x hx, entry y hy], ⟨rewritten.size.trans invariant.size, ?_,
    rewritten.live, ?_⟩, by simp, rewritten.lighter, rewritten.less⟩
  · exact invariant.keys.sublist rewritten.keys
  · intro key inside absent
    by_cases named : key ∈ st.subsets.map Prod.fst
    · exact rewritten.settled key named absent
    · exact (rewritten.frame key named).trans (invariant.settled key inside named)

/-- Later pairs of a round, used indices or not, keep what the first ones have reached. -/
theorem addPairs_spec {targets : List M} (pairs : List (Nat × Nat)) (used : List Nat) {st : State M}
    (invariant : Invariant targets st)
    (inside : ∀ p ∈ pairs, p.1 ≠ p.2 ∧ p.1 < st.numbers.length ∧ p.2 < st.numbers.length) :
    ∃ st', addPairs (fun a b => a + b) pairs used st = .ok st' ∧ Invariant targets st' ∧
      st.numbers.length ≤ st'.numbers.length ∧ weight st'.subsets ≤ weight st.subsets := by
  induction pairs generalizing used st with
  | nil => exact ⟨st, rfl, invariant, Nat.le_refl _, Nat.le_refl _⟩
  | cons p pairs ih =>
    obtain ⟨x, y⟩ := p
    have rest : ∀ p ∈ pairs, p.1 ≠ p.2 ∧ p.1 < st.numbers.length ∧ p.2 < st.numbers.length :=
      fun p member => inside p (List.mem_cons_of_mem _ member)
    rw [addPairs]
    split
    · exact ih used invariant rest
    · obtain ⟨apart, hx, hy⟩ := inside (x, y) List.mem_cons_self
      obtain ⟨mid, ran, invariant, grown, lighter, _⟩ := addPair_spec invariant apart hx hy
      obtain ⟨st', ran', invariant', longer, lighter'⟩ := ih (x :: y :: used) invariant
        fun p member => by
          have here := rest p member
          exact ⟨here.1, by omega, by omega⟩
      refine ⟨st', ?_, invariant', by omega, by omega⟩
      rw [ran]
      exact ran'

theorem addUp_spec {numbers : List M} (indices : List Nat) (total : M)
    (inside : ∀ i ∈ indices, i < numbers.length) : addUp (fun a b => a + b) numbers indices total =
      .ok (total + (indices.map fun i => numbers.getD i 0).sum) := by
  induction indices generalizing total with
  | nil => simp [addUp]
  | cons i indices ih =>
    have here := inside i List.mem_cons_self
    have entry : numbers[i]? = some (numbers.getD i 0) := by
      rw [List.getD_eq_getElem?_getD, List.getElem?_eq_getElem here, Option.getD_some]
    rw [addUp, entry]
    simp only
    rw [ih _ fun j member => inside j (List.mem_cons_of_mem _ member), List.map_cons, List.sum_cons,
      add_assoc]

/-- Any order in which the interpreter can go through a set. -/
def Enumerates (order : Finset Nat → List Nat) : Prop :=
  ∀ subset, (order subset).Nodup ∧ (order subset).toFinset = subset

theorem enumerated_mem {order : Finset Nat → List Nat} (enumerates : Enumerates order)
    {subset : Finset Nat} {i : Nat} : i ∈ order subset ↔ i ∈ subset := by
  conv => rhs; rw [← (enumerates subset).2]
  exact List.mem_toFinset.symm

theorem enumerated_sum {order : Finset Nat → List Nat} (enumerates : Enumerates order)
    (numbers : List M) (subset : Finset Nat) :
    ((order subset).map fun i => numbers.getD i 0).sum = indexSum numbers subset := by
  obtain ⟨nodup, same⟩ := enumerates subset
  rw [← List.sum_toFinset _ nodup, same]
  rfl

theorem finish_spec {order : Finset Nat → List Nat} (enumerates : Enumerates order)
    {targets numbers : List M} (subsets : List (Nat × Finset Nat)) (output : List M)
    (keys : (subsets.map Prod.fst).Nodup) (size : output.length = targets.length)
    (live : ∀ e ∈ subsets, Live targets numbers output e) :
    ∃ out, finish (fun a b => a + b) 0 order numbers subsets output = .ok out ∧
      out.length = targets.length ∧
      (∀ key, key ∉ subsets.map Prod.fst → out.getD key 0 = output.getD key 0) ∧
      ∀ key ∈ subsets.map Prod.fst, out.getD key 0 = targets.getD key 0 := by
  induction subsets generalizing output with
  | nil => exact ⟨output, rfl, size, fun _ _ => rfl, by simp⟩
  | cons e subsets ih =>
    obtain ⟨key, subset⟩ := e
    obtain ⟨fresh, keys⟩ := List.nodup_cons.mp keys
    have here := live (key, subset) List.mem_cons_self
    have total : addUp (fun a b => a + b) numbers (order subset) (output.getD key 0) =
        .ok (targets.getD key 0) := by
      rw [addUp_spec _ _ fun i member => here.inside i ((enumerated_mem enumerates).mp member),
        enumerated_sum enumerates, here.untouched, zero_add, here.sum]
    obtain ⟨out, ran, length, frame, sums⟩ := ih (output.set key (targets.getD key 0)) keys
      ((List.length_set ..).trans size) fun e member => by
        have named : e.1 ∈ subsets.map Prod.fst := List.mem_map_of_mem member
        have other : e.1 ≠ key := fun same => fresh (same ▸ named)
        exact (live e (List.mem_cons_of_mem _ member)).outside (getD_set_other other output _)
    refine ⟨out, ?_, length, ?_, ?_⟩
    · rw [finish, total]
      exact ran
    · intro other absent
      rw [List.map_cons, List.mem_cons, not_or] at absent
      rw [frame other absent.2, getD_set_other absent.1]
    · intro other member
      rcases List.mem_cons.mp member with same | later
      · have same : other = key := same
        rw [same, frame key fresh, getD_set_same (size ▸ here.key)]
      · exact sums other later

theorem mem_allPairs {order : Finset Nat → List Nat} (enumerates : Enumerates order)
    {subsets : List (Nat × Finset Nat)} {p : Nat × Nat} (member : p ∈ allPairs order subsets) :
    ∃ e ∈ subsets, p.1 ∈ e.2 ∧ p.2 ∈ e.2 ∧ p.1 < p.2 := by
  obtain ⟨e, present, member⟩ := List.mem_flatMap.mp member
  obtain ⟨x, hx, member⟩ := List.mem_flatMap.mp member
  obtain ⟨y, above, rfl⟩ := List.mem_map.mp member
  obtain ⟨hy, above⟩ := List.mem_filter.mp above
  exact ⟨e, present, (enumerated_mem enumerates).mp hx, (enumerated_mem enumerates).mp hy,
    of_decide_eq_true above⟩

section Rounds
variable {cutoff : Nat → Nat} {sorted : (Nat × Nat → Nat) → List (Nat × Nat) → List (Nat × Nat)}
  {order : Finset Nat → List Nat} (permutes : ∀ count pairs, (sorted count pairs).Perm pairs)
  (enumerates : Enumerates order)
include permutes enumerates

/-- A round ends the loop with the sums, or goes on with lighter subsets. -/
theorem round_spec {targets : List M} {st : State M} (invariant : Invariant targets st) :
    (∀ n, rounds (fun a b => a + b) 0 cutoff sorted order (n + 1) st = .ok (some targets)) ∨
    ∃ st', Invariant targets st' ∧ weight st'.subsets < weight st.subsets ∧
      ∀ n, rounds (fun a b => a + b) 0 cutoff sorted order (n + 1) st =
        rounds (fun a b => a + b) 0 cutoff sorted order n st' := by
  have counted : ∀ p ∈ (sorted (fun p => (allPairs order st.subsets).count p)
      (allPairs order st.subsets).eraseDups).take (cutoff st.numbers.length),
      ∃ e ∈ st.subsets, p.1 ∈ e.2 ∧ p.2 ∈ e.2 ∧ p.1 < p.2 := fun p member =>
    mem_allPairs enumerates
      (List.mem_eraseDups.mp ((permutes _ _).mem_iff.mp (List.mem_of_mem_take member)))
  cases chosen : (sorted (fun p => (allPairs order st.subsets).count p)
      (allPairs order st.subsets).eraseDups).take (cutoff st.numbers.length) with
  | nil =>
    left
    intro n
    obtain ⟨out, ran, length, frame, sums⟩ := finish_spec enumerates st.subsets st.output
      invariant.keys invariant.size invariant.live
    have whole : out = targets := by
      refine List.ext_getElem length fun key inside inside' => ?_
      have value : out.getD key 0 = targets.getD key 0 := by
        by_cases named : key ∈ st.subsets.map Prod.fst
        · exact sums key named
        · exact (frame key named).trans (invariant.settled key inside' named)
      rwa [List.getD_eq_getElem?_getD, List.getD_eq_getElem?_getD, List.getElem?_eq_getElem inside,
        List.getElem?_eq_getElem inside', Option.getD_some, Option.getD_some] at value
    simp only [rounds, chosen, ran, whole, bind, Except.bind]
  | cons pair more =>
    right
    rw [chosen] at counted
    obtain ⟨x, y⟩ := pair
    have inside : ∀ p ∈ (x, y) :: more,
        p.1 ≠ p.2 ∧ p.1 < st.numbers.length ∧ p.2 < st.numbers.length := by
      intro p member
      obtain ⟨e, present, first, second, below⟩ := counted p member
      have live := invariant.live e present
      exact ⟨Nat.ne_of_lt below, live.inside _ first, live.inside _ second⟩
    obtain ⟨apart, hx, hy⟩ := inside (x, y) List.mem_cons_self
    obtain ⟨e, present, first, second, _⟩ := counted (x, y) List.mem_cons_self
    -- the first pair has no used index, and it lessens the subset it is from
    obtain ⟨mid, ran, invariant', grown, _, less⟩ := addPair_spec invariant apart hx hy
    obtain ⟨st', ran', invariant'', _, lighter⟩ := addPairs_spec more [x, y] invariant'
      fun p member => by
        have here := inside p (List.mem_cons_of_mem _ member)
        exact ⟨here.1, by omega, by omega⟩
    have strictly := less ⟨e, present, first, second⟩
    refine ⟨st', invariant'', by omega, fun n => ?_⟩
    have both : addPairs (fun a b => a + b) ((x, y) :: more) [] st = .ok st' := by
      rw [addPairs, if_neg (by simp), ran]
      exact ran'
    simp only [rounds, chosen, both, bind, Except.bind]

theorem rounds_spec {targets : List M} (n : Nat) {st : State M} (invariant : Invariant targets st)
    (enough : weight st.subsets < n) :
    rounds (fun a b => a + b) 0 cutoff sorted order n st = .ok (some targets) := by
  induction n generalizing st with
  | zero => exact absurd enough (Nat.not_lt_zero _)
  | succ n ih =>
    rcases @round_spec _ _ cutoff _ _ permutes enumerates _ _ invariant with last | ⟨st', invariant', less, goes⟩
    · exact last n
    · rw [goes n]
      exact ih invariant' (by omega)

end Rounds

theorem start_invariant {numbers : List M} {subsets : List (List Nat)}
    (inside : ∀ s ∈ subsets, ∀ i ∈ s, i < numbers.length) :
    Invariant (subsets.map fun s => indexSum numbers s.toFinset)
      ⟨numbers, subsets.zipIdx.map fun e => (e.2, e.1.toFinset), subsets.map fun _ => 0⟩ := by
  have names : (subsets.zipIdx.map fun e => (e.2, e.1.toFinset)).map Prod.fst =
      List.range subsets.length := by
    rw [List.map_map, List.range_eq_range']
    exact List.zipIdx_map_snd 0 subsets
  refine ⟨by simp, ?_, ?_, ?_⟩
  · rw [names]
    exact List.nodup_range
  · intro e member
    obtain ⟨⟨s, key⟩, place, rfl⟩ := List.mem_map.mp member
    have found : subsets[key]? = some s := List.mem_zipIdx_iff_getElem?.mp place
    obtain ⟨below, here⟩ := List.getElem?_eq_some_iff.mp found
    refine ⟨by simpa using below, fun i held => ?_, ?_, ?_⟩
    · exact inside s (here ▸ List.getElem_mem below) i (List.mem_toFinset.mp held)
    · simp [List.getD_eq_getElem?_getD, below]
    · simp [List.getD_eq_getElem?_getD, found]
  · intro key below absent
    rw [names] at absent
    exact absurd (List.mem_range.mpr (by simpa using below)) absent

/-- The loop ends by its exit condition, with the sums of the subsets. -/
theorem multisubset_sums {cutoff : Nat → Nat}
    {sorted : (Nat × Nat → Nat) → List (Nat × Nat) → List (Nat × Nat)}
    {order : Finset Nat → List Nat} (permutes : ∀ count pairs, (sorted count pairs).Perm pairs)
    (enumerates : Enumerates order) {numbers : List M} (some : numbers ≠ [])
    {subsets : List (List Nat)} (inside : ∀ s ∈ subsets, ∀ i ∈ s, i < numbers.length) :
    ∃ enough, ∀ roundcount ≥ enough,
      multisubset (fun a b => a + b) 0 cutoff sorted order roundcount numbers subsets =
        .ok (.some (subsets.map fun s => ∑ i ∈ s.toFinset, numbers.getD i 0)) := by
  refine ⟨weight (subsets.zipIdx.map fun e => (e.2, e.1.toFinset)) + 1, fun roundcount more => ?_⟩
  rw [multisubset, if_neg fun none => some none.1]
  exact rounds_spec permutes enumerates roundcount (start_invariant inside) more

theorem multisubset_sums_sample : ∃ enough, ∀ roundcount ≥ enough,
    multisubset (fun a b : Nat => a + b) 0 (fun n => n)
      (fun count pairs => pairs.mergeSort fun p q => count p ≥ count q) (fun s => s.sort (· ≤ ·))
      roundcount [5, 7, 9, 11] [[0, 1, 2], [], [3, 1, 0]] = .ok (some [21, 0, 23]) :=
  multisubset_sums (fun _ _ => List.mergeSort_perm _ _)
    (fun s => ⟨Finset.sort_nodup s _, Finset.sort_toFinset s _⟩) (by decide) (by decide)

end Sums

end MultiSubset
