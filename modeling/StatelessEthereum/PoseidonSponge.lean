import StatelessEthereum.PoseidonPermutation

/- The Poseidon hash on plain integers: inputs of any length go into a sponge. -/
namespace PoseidonSponge
open PythonError Fft PoseidonPermutation

def inputsPerRound (c : Constants) : Nat := c.t - 1

section Hash
variable (c : Constants) (modulus : Nat)

/-- `inputs` with a one and zeros behind it. -/
def pad (inputs : List Int) : List Int :=
  let numPad := inputsPerRound c - inputs.length % inputsPerRound c
  inputs ++ [1] ++ List.replicate (numPad - 1) 0

/-- `sponge[1:]` takes the block up. -/
def addInputs (sponge roundInputs : List Int) : List Int :=
  sponge.take 1 ++ List.zipWith (fun s b => (s + b) % (modulus : Int)) (sponge.drop 1) roundInputs

def roundInputs (inputs : List Int) (i : Nat) : List Int :=
  (inputs.drop (i * inputsPerRound c)).take (inputsPerRound c)

/-- The sponge after a number of rounds of `poseidon_hash`. -/
def spongeAfter (inputs : List Int) (hashRounds : Nat) : Except PyError (List Int) :=
  (List.range hashRounds).foldlM (fun sponge i =>
    permute c modulus (addInputs modulus sponge (roundInputs c inputs i))) (List.replicate c.t 0)

def poseidonHash (inputs : List Int) : Except PyError (List Int) :=
  if inputsPerRound c = 0 then .error .zeroDivisionError
  else
    let inputs := pad c inputs
    if inputs.length % inputsPerRound c ≠ 0 then .error (.assertionError "")
    else do
      let sponge ← spongeAfter c modulus inputs (inputs.length / inputsPerRound c)
      .ok (sponge.drop 1)

end Hash

section Field
variable {modulus : Nat} [prime : Fact modulus.Prime]

def reduce (modulus : Nat) (l : List Int) : List Int := l.map fun x => x % (modulus : Int)

theorem addInputs_state {t : Nat} {s block : List Int} (state : State modulus t s)
    (some : 0 < t) (size : block.length = t - 1) : State modulus t (addInputs modulus s block) := by
  have positive : NeZero modulus := ⟨prime.out.ne_zero⟩
  refine ⟨?_, fun x member => ?_⟩
  · simp only [addInputs, List.length_append, List.length_take, List.length_zipWith,
      List.length_drop, state.length, size]
    omega
  · rcases List.mem_append.mp member with first | later
    · exact state.reduced x (List.mem_of_mem_take first)
    · obtain ⟨i, inside, rfl⟩ := List.mem_iff_getElem.mp later
      rw [List.getElem_zipWith]
      exact mod_reduced _

omit prime in
theorem addInputs_reduce (s block : List Int) :
    addInputs modulus s (reduce modulus block) = addInputs modulus s block := by
  rw [addInputs, addInputs, reduce, List.zipWith_map_right]
  simp only [Int.add_emod_emod]

omit prime in
/-- What two sponges that took their blocks up to the same state have in common. -/
theorem addInputs_same {t : Nat} {s s' block block' : List Int} (state : State modulus t s)
    (state' : State modulus t s') (size : block.length = t - 1)
    (size' : block'.length = t - 1) (same : addInputs modulus s block = addInputs modulus s' block') :
    s.head? = s'.head? ∧ (s = s' → reduce modulus block = reduce modulus block') := by
  have parts := List.append_inj same (by
    rw [List.length_take, List.length_take, state.length, state'.length])
  constructor
  · have first := congrArg List.head? parts.1
    simpa [List.head?_take] using first
  · rintro rfl
    have zipped := parts.2
    apply List.ext_getElem (by simp only [reduce, List.length_map, size, size'])
    intro i inside inside'
    simp only [reduce, List.length_map] at inside inside'
    have here : i < (s.drop 1).length := by
      rw [List.length_drop, state.length]
      omega
    have entry := congrArg (fun l => l[i]?) zipped
    simp only [List.getElem?_zipWith, List.getElem?_eq_getElem here, List.getElem?_eq_getElem inside,
      List.getElem?_eq_getElem inside', Option.some.injEq] at entry
    simp only [reduce, List.getElem_map]
    exact Int.ModEq.add_left_cancel' _ entry

omit prime in
theorem spongeAfter_succ (c : Constants) (inputs : List Int) (n : Nat) :
    spongeAfter c modulus inputs (n + 1) = (do
      let s ← spongeAfter c modulus inputs n
      permute c modulus (addInputs modulus s (roundInputs c inputs n))) := by
  rw [spongeAfter, List.range_succ, List.foldlM_append, spongeAfter]
  congr 1
  funext s
  simp only [List.foldlM_cons, List.foldlM_nil, bind_pure]

omit prime in
theorem spongeAfter_congr {c : Constants} {inputs inputs' : List Int} (n : Nat)
    (same : reduce modulus (inputs.take (n * inputsPerRound c)) =
      reduce modulus (inputs'.take (n * inputsPerRound c))) :
    spongeAfter c modulus inputs n = spongeAfter c modulus inputs' n := by
  induction n with
  | zero => rfl
  | succ n ih =>
    have earlier (l : List Int) : reduce modulus (l.take (n * inputsPerRound c)) =
        (reduce modulus (l.take ((n + 1) * inputsPerRound c))).take (n * inputsPerRound c) := by
      rw [reduce, reduce, ← List.map_take, List.take_take, Nat.min_eq_left]
      exact Nat.mul_le_mul_right _ (Nat.le_succ n)
    have block (l : List Int) : reduce modulus (roundInputs c l n) =
        (reduce modulus (l.take ((n + 1) * inputsPerRound c))).drop (n * inputsPerRound c) := by
      rw [reduce, reduce, ← List.map_drop, List.drop_take, roundInputs, Nat.succ_mul,
        Nat.add_sub_cancel_left]
    rw [spongeAfter_succ, spongeAfter_succ, ih (by rw [earlier, earlier, same])]
    congr 1
    funext s
    rw [← addInputs_reduce s (roundInputs c inputs n), block, same, ← block, addInputs_reduce]

section Sponge
variable {c : Constants} (proper : Proper c modulus) (wide : 2 ≤ c.t)
include proper wide

omit proper prime wide in
theorem roundInputs_length {inputs : List Int} {n : Nat}
    (enough : (n + 1) * inputsPerRound c ≤ inputs.length) :
    (roundInputs c inputs n).length = c.t - 1 := by
  rw [roundInputs, List.length_take, List.length_drop]
  simp only [inputsPerRound, Nat.succ_mul] at enough ⊢
  omega

omit wide in
theorem spongeAfter_state {inputs : List Int} {n : Nat}
    (enough : n * inputsPerRound c ≤ inputs.length) :
    ∃ s, spongeAfter c modulus inputs n = .ok s ∧ State modulus c.t s := by
  induction n with
  | zero =>
    refine ⟨_, rfl, List.length_replicate, fun x member => ?_⟩
    rw [List.eq_of_mem_replicate member]
    exact ⟨Int.le_refl 0, by exact_mod_cast prime.out.pos⟩
  | succ n ih =>
    obtain ⟨s, ran, state⟩ := ih (by rw [Nat.succ_mul] at enough; omega)
    have taken := addInputs_state state proper.some (roundInputs_length enough)
    obtain ⟨s', ran', state'⟩ := permutes_total (permute_permutes proper) taken
    exact ⟨s', by rw [spongeAfter_succ, ran]; exact ran', state'⟩

/-- Two sponges that end in one state, seen one block earlier. -/
theorem spongeAfter_collision {inputs inputs' : List Int} {n n' : Nat}
    (whole : inputs.length = (n + 1) * inputsPerRound c)
    (whole' : inputs'.length = (n' + 1) * inputsPerRound c)
    (same : spongeAfter c modulus inputs (n + 1) = spongeAfter c modulus inputs' (n' + 1)) :
    ∃ s s', spongeAfter c modulus inputs n = .ok s ∧ spongeAfter c modulus inputs' n' = .ok s' ∧
      s.head? = s'.head? ∧ (reduce modulus (inputs.take (n * inputsPerRound c)) =
        reduce modulus (inputs'.take (n' * inputsPerRound c)) →
          reduce modulus inputs = reduce modulus inputs') := by
  have positive : 0 < inputsPerRound c := by
    rw [inputsPerRound]
    omega
  have before : n * inputsPerRound c ≤ inputs.length := by
    rw [whole]
    exact Nat.mul_le_mul_right _ (Nat.le_succ n)
  have before' : n' * inputsPerRound c ≤ inputs'.length := by
    rw [whole']
    exact Nat.mul_le_mul_right _ (Nat.le_succ n')
  obtain ⟨s, ran, state⟩ := spongeAfter_state proper before
  obtain ⟨s', ran', state'⟩ := spongeAfter_state proper before'
  have size := roundInputs_length whole.ge
  have size' := roundInputs_length whole'.ge
  have taken := addInputs_state state proper.some size
  have taken' := addInputs_state state' proper.some size'
  rw [spongeAfter_succ, spongeAfter_succ, ran, ran'] at same
  have permutes := permute_permutes proper
  obtain ⟨out, reached, good⟩ := permutes_total permutes taken
  have equal := (permutes_unique permutes good).unique ⟨taken, reached⟩
    ⟨taken', same.symm.trans reached⟩
  obtain ⟨heads, blocks⟩ := addInputs_same state state' size size' equal
  refine ⟨s, s', ran, ran', heads, fun prefixes => ?_⟩
  have rounds : n = n' := by
    have lengths := congrArg List.length prefixes
    simp only [reduce, List.length_map, List.length_take] at lengths
    rw [Nat.min_eq_left before, Nat.min_eq_left before'] at lengths
    exact Nat.eq_of_mul_eq_mul_right positive lengths
  subst rounds
  have states : s = s' := by
    rw [spongeAfter_congr n prefixes, ran'] at ran
    exact (Except.ok.inj ran).symm
  have rest (l : List Int) (long : l.length = (n + 1) * inputsPerRound c) :
      (l.drop (n * inputsPerRound c)).take (inputsPerRound c) = l.drop (n * inputsPerRound c) := by
    apply List.take_of_length_le
    rw [List.length_drop, long, Nat.succ_mul]
    omega
  have last (l : List Int) (long : l.length = (n + 1) * inputsPerRound c) : reduce modulus l =
      reduce modulus (l.take (n * inputsPerRound c)) ++ reduce modulus (roundInputs c l n) := by
    rw [reduce, reduce, reduce, ← List.map_append, roundInputs, rest l long, List.take_append_drop]
  rw [last inputs whole, last inputs' whole', prefixes, blocks states]

end Sponge

/- The padding. -/

theorem ones_then_zeros {xs ys : List Int} {a b : Nat}
    (same : xs ++ [1] ++ List.replicate a 0 = ys ++ [1] ++ List.replicate b 0) : xs = ys := by
  induction a generalizing b with
  | zero =>
    cases b with
    | zero => simpa using same
    | succ b =>
      have ends := congrArg List.getLast? same
      rw [List.replicate_succ', ← List.append_assoc, List.replicate_zero, List.append_nil,
        List.getLast?_concat, List.getLast?_concat] at ends
      cases ends
  | succ a ih =>
    cases b with
    | zero =>
      have ends := congrArg List.getLast? same
      rw [List.replicate_succ', ← List.append_assoc, List.replicate_zero, List.append_nil,
        List.getLast?_concat, List.getLast?_concat] at ends
      cases ends
    | succ b =>
      rw [List.replicate_succ', List.replicate_succ', ← List.append_assoc, ← List.append_assoc] at same
      exact ih (List.append_inj' same rfl).1

theorem pad_reduce {c : Constants} {inputs inputs' : List Int}
    (same : reduce modulus (pad c inputs) = reduce modulus (pad c inputs')) :
    reduce modulus inputs = reduce modulus inputs' := by
  have large : (1 : Int) < modulus := by exact_mod_cast prime.out.one_lt
  have one : (1 : Int) % modulus = 1 := Int.emod_eq_of_lt (by omega) large
  have reduced (l : List Int) (count : Nat) :
      reduce modulus (l ++ [1] ++ List.replicate count 0) =
        reduce modulus l ++ [1] ++ List.replicate count 0 := by
    simp only [reduce, List.map_append, List.map_cons, List.map_nil, List.map_replicate, one,
      Int.zero_emod]
  rw [pad, pad, reduced, reduced] at same
  exact ones_then_zeros same

omit prime in
theorem pad_length {c : Constants} (wide : 2 ≤ c.t) (inputs : List Int) :
    ∃ n, (pad c inputs).length = (n + 1) * inputsPerRound c := by
  have positive : 0 < inputsPerRound c := by
    rw [inputsPerRound]
    omega
  refine ⟨inputs.length / inputsPerRound c, ?_⟩
  have split := Nat.div_add_mod inputs.length (inputsPerRound c)
  have small := Nat.mod_lt inputs.length positive
  rw [pad]
  simp only [List.length_append, List.length_singleton, List.length_replicate]
  rw [Nat.succ_mul, Nat.mul_comm]
  omega

section Hash
variable {c : Constants} (proper : Proper c modulus) (wide : 2 ≤ c.t)
include proper wide

/-- The hash never fails, and two inputs can end in one state only when they are the same
    residues or when, before the last block of each, their sponges agreed in `sponge[0]`
    after different blocks. -/
theorem sponge_collision : (∀ inputs, ∃ out, poseidonHash c modulus inputs = .ok out ∧
      State modulus (c.t - 1) out) ∧
    ∀ inputs inputs' : List Int,
      spongeAfter c modulus (pad c inputs) ((pad c inputs).length / inputsPerRound c) =
        spongeAfter c modulus (pad c inputs') ((pad c inputs').length / inputsPerRound c) →
      reduce modulus inputs = reduce modulus inputs' ∨ ∃ n n' s s',
        n + 1 = (pad c inputs).length / inputsPerRound c ∧
        n' + 1 = (pad c inputs').length / inputsPerRound c ∧
        reduce modulus ((pad c inputs).take (n * inputsPerRound c)) ≠
          reduce modulus ((pad c inputs').take (n' * inputsPerRound c)) ∧
        spongeAfter c modulus (pad c inputs) n = .ok s ∧
        spongeAfter c modulus (pad c inputs') n' = .ok s' ∧ s.head? = s'.head? := by
  have positive : 0 < inputsPerRound c := by
    rw [inputsPerRound]
    omega
  constructor
  · intro inputs
    obtain ⟨n, whole⟩ := pad_length wide inputs
    obtain ⟨s, ran, state⟩ := spongeAfter_state proper whole.ge
    refine ⟨s.drop 1, ?_, by rw [List.length_drop, state.length], fun x member =>
      state.reduced x (List.mem_of_mem_drop member)⟩
    have blocks : (pad c inputs).length / inputsPerRound c = n + 1 := by
      rw [whole, Nat.mul_div_cancel _ positive]
    have even : (pad c inputs).length % inputsPerRound c = 0 := by rw [whole, Nat.mul_mod_left]
    simp only [poseidonHash, positive.ne', if_false, even, ne_eq, not_true_eq_false, blocks, ran, bind,
      Except.bind]
  · intro inputs inputs' same
    obtain ⟨n, whole⟩ := pad_length wide inputs
    obtain ⟨n', whole'⟩ := pad_length wide inputs'
    rw [whole, whole', Nat.mul_div_cancel _ positive, Nat.mul_div_cancel _ positive] at same ⊢
    obtain ⟨s, s', ran, ran', heads, equal⟩ := spongeAfter_collision proper wide whole whole' same
    by_cases prefixes : reduce modulus ((pad c inputs).take (n * inputsPerRound c)) =
        reduce modulus ((pad c inputs').take (n' * inputsPerRound c))
    · exact Or.inl (pad_reduce (equal prefixes))
    · exact Or.inr ⟨n, n', s, s', rfl, rfl, prefixes, ran, ran', heads⟩

end Hash

theorem sponge_collision_sample : ∃ n n' s s',
    n + 1 = (pad sampleConstants [0, 5, 2]).length / inputsPerRound sampleConstants ∧
    n' + 1 = (pad sampleConstants [1, 0, 0]).length / inputsPerRound sampleConstants ∧
    reduce 7 ((pad sampleConstants [0, 5, 2]).take (n * 2)) ≠
      reduce 7 ((pad sampleConstants [1, 0, 0]).take (n' * 2)) ∧
    spongeAfter sampleConstants 7 (pad sampleConstants [0, 5, 2]) n = .ok s ∧
    spongeAfter sampleConstants 7 (pad sampleConstants [1, 0, 0]) n' = .ok s' ∧
    s.head? = s'.head? := by
  have prime : Fact (Nat.Prime 7) := ⟨by norm_num⟩
  have met := (sponge_collision sampleConstants_proper (by decide)).2 [0, 5, 2] [1, 0, 0]
    (by decide +kernel)
  exact met.resolve_left (by decide)

end Field

end PoseidonSponge
