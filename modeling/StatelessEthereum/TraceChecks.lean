import StatelessEthereum.StarkMerkle
import StatelessEthereum.NumberTransform
import StatelessEthereum.MerkleBatches

/- What an accepted trace says of the lookup it is made for and of its own steps
   (zkSTARK/circuits/mpt_circuit.py). -/
namespace TraceChecks
open BigEndian PythonError MerkleNodes MerkleForms MerkleRefinement MerkleRuns MerkleCompleteness MerkleBatches
open MerkleTrees hiding insert get
open MerkleVerifiers (verifySingleProof)
open FiatShamir LowDegree NumberTransform MptCircuit StarkMerkle

/- Transition constraints, which `verify_constraints` computes for every step
   without looking at them. -/
section Transitions

/-- The constraints on two rows: the change of the path position, the flag once
    it is set, and the node type. -/
def rowConstraints (ops : FieldOps) (curr next : Registers) : List UInt64 :=
  let pathDiff := ops.sub next.r2 curr.r2
  let foundPersistence :=
    if curr.r3 = 1 then [ops.mul curr.r3 (ops.sub 1 next.r3)] else []
  let typeCheck := ops.mul curr.r5 (ops.mul (ops.sub curr.r5 1) (ops.sub curr.r5 2))
  pathDiff :: foundPersistence ++ [typeCheck]

def transitionConstraints (ops : FieldOps) (trace : ExecutionTrace) (step : Nat) : List UInt64 :=
  if trace.nSteps ≤ step + 1 then []
  else rowConstraints ops (trace.traceTable.getD step Registers.zeros)
    (trace.traceTable.getD (step + 1) Registers.zeros)

/- The rules that the constraints stand for. -/

def Typed (curr _next : Registers) : Prop := curr.r5 = 0 ∨ curr.r5 = 1 ∨ curr.r5 = 2

def Persists (curr next : Registers) : Prop := curr.r3 = 1 → next.r3 = 1

def Advances (curr next : Registers) : Prop := curr.r2 ≤ next.r2

structure Obeys (curr next : Registers) : Prop where
  typed : Typed curr next
  persists : Persists curr next
  advances : Advances curr next

def ObeysRules (trace : ExecutionTrace) : Prop :=
  ∀ step, step + 1 < trace.nSteps →
    Obeys (trace.traceTable.getD step Registers.zeros)
      (trace.traceTable.getD (step + 1) Registers.zeros)

theorem zero_of_cast {x : UInt64} (low : x.toNat < FIELD_PRIME_INT)
    (zero : (x.toNat : ZMod FIELD_PRIME_INT) = 0) : x = 0 := by
  have number := (entries_eq_iff low (show 0 < FIELD_PRIME_INT by decide)).mp
    (zero.trans Nat.cast_zero.symm)
  exact UInt64.toNat_inj.mp number

theorem mul_eq_zero_iff {a b : UInt64} (low : a.toNat < FIELD_PRIME_INT)
    (low' : b.toNat < FIELD_PRIME_INT) : goldilocks.mul a b = 0 ↔ a = 0 ∨ b = 0 := by
  obtain ⟨reduced, product⟩ := mul_shows a b
  constructor
  · intro zero
    rw [zero, UInt64.toNat_zero, Nat.cast_zero] at product
    rcases mul_eq_zero.mp product.symm with first | second
    · exact Or.inl (zero_of_cast low first)
    · exact Or.inr (zero_of_cast low' second)
  · intro zero
    apply zero_of_cast reduced
    rw [product]
    rcases zero with rfl | rfl
    · simp
    · simp

theorem sub_eq_zero_iff {a b : UInt64} (low : a.toNat < FIELD_PRIME_INT)
    (low' : b.toNat < FIELD_PRIME_INT) : goldilocks.sub a b = 0 ↔ a = b := by
  obtain ⟨reduced, difference⟩ := sub_shows a low'
  constructor
  · intro zero
    rw [zero, UInt64.toNat_zero, Nat.cast_zero] at difference
    have number := (entries_eq_iff low low').mp (sub_eq_zero.mp difference.symm)
    exact UInt64.toNat_inj.mp number
  · intro same
    apply zero_of_cast reduced
    rw [difference, same, sub_self]

/-- The expressions themselves are right: over reduced registers those for the flag
    and for the type vanish exactly where their rules hold. -/
theorem rowConstraints_vanish {curr next : Registers} (type : curr.r5.toNat < FIELD_PRIME_INT)
    (flag : next.r3.toNat < FIELD_PRIME_INT) :
    (∀ x ∈ (rowConstraints goldilocks curr next).tail, x = 0) ↔
      (curr.r5 = 0 ∨ curr.r5 = 1 ∨ curr.r5 = 2) ∧ (curr.r3 = 1 → next.r3 = 1) := by
  have one : (1 : UInt64).toNat < FIELD_PRIME_INT := by decide
  have two : (2 : UInt64).toNat < FIELD_PRIME_INT := by decide
  have typed : goldilocks.mul curr.r5 (goldilocks.mul (goldilocks.sub curr.r5 1)
      (goldilocks.sub curr.r5 2)) = 0 ↔ curr.r5 = 0 ∨ curr.r5 = 1 ∨ curr.r5 = 2 := by
    rw [mul_eq_zero_iff type (mul_shows _ _).1,
      mul_eq_zero_iff (sub_shows _ one).1 (sub_shows _ two).1, sub_eq_zero_iff type one,
      sub_eq_zero_iff type two]
  by_cases set : curr.r3 = 1
  · have persists : goldilocks.mul 1 (goldilocks.sub 1 next.r3) = 0 ↔ next.r3 = 1 := by
      rw [mul_eq_zero_iff one (sub_shows _ flag).1, sub_eq_zero_iff one flag]
      simp [eq_comm]
    simp [rowConstraints, typed, persists, set, and_comm]
  · simp [rowConstraints, typed, set]

/-- So a verifier that looked at them would have the first two rules. -/
theorem constraints_vanish (trace : ExecutionTrace)
    (reduced : ∀ i, ∀ x ∈ (trace.traceTable.getD i Registers.zeros).cells,
      x.toNat < FIELD_PRIME_INT) :
    (∀ step, ∀ x ∈ (transitionConstraints goldilocks trace step).tail, x = 0) ↔
      ∀ step, step + 1 < trace.nSteps →
        ((trace.traceTable.getD step Registers.zeros).r5 = 0 ∨
          (trace.traceTable.getD step Registers.zeros).r5 = 1 ∨
          (trace.traceTable.getD step Registers.zeros).r5 = 2) ∧
        ((trace.traceTable.getD step Registers.zeros).r3 = 1 →
          (trace.traceTable.getD (step + 1) Registers.zeros).r3 = 1) := by
  have type (i : Nat) : (trace.traceTable.getD i Registers.zeros).r5.toNat < FIELD_PRIME_INT :=
    reduced i _ (by simp [Registers.cells])
  have flag (i : Nat) : (trace.traceTable.getD i Registers.zeros).r3.toNat < FIELD_PRIME_INT :=
    reduced i _ (by simp [Registers.cells])
  have each (step : Nat) := rowConstraints_vanish (type step) (flag (step + 1))
  constructor
  · intro vanish step inner
    have here := vanish step
    rw [transitionConstraints, if_neg (Nat.not_le.mpr inner)] at here
    exact (each step).mp here
  · intro rules step x member
    unfold transitionConstraints at member
    split at member
    · simp at member
    · rename_i inner
      exact (each step).mpr (rules step (Nat.lt_of_not_le inner)) x member

/-- A rule that every accepted trace of so many steps follows at one step. -/
def Kept (rule : Registers → Registers → Prop) (nSteps step : Nat) : Prop :=
  ∀ trace : ExecutionTrace, trace.nSteps = nSteps → verifyConstraints trace = .ok true →
    step + 1 < nSteps → rule (trace.traceTable.getD step Registers.zeros)
      (trace.traceTable.getD (step + 1) Registers.zeros)

/-- Only one row stands out: it has a node type that does not exist, and behind the
    first row also a position and a flag that the next row does not have. -/
def strayRow (nSteps step i : Nat) : Registers :=
  { Registers.zeros with
    r2 := if i = step ∧ i ≠ 0 then 1 else 0
    r3 := if (i = step ∧ i ≠ 0) ∨ i + 1 = nSteps then 1 else 0
    r5 := if i = step then 3 else 1 }

def strayAt (nSteps step : Nat) : ExecutionTrace where
  traceTable := (List.range nSteps).map (strayRow nSteps step)
  nSteps := nSteps
  publicInputs := ⟨[], [], []⟩

theorem strayAt_row {nSteps i : Nat} (inside : i < nSteps) (step : Nat) :
    (strayAt nSteps step).traceTable[i]? = some (strayRow nSteps step i) := by
  rw [strayAt, List.getElem?_map, List.getElem?_range inside, Option.map_some]

theorem strayAt_getD {nSteps i : Nat} (inside : i < nSteps) (step : Nat) :
    (strayAt nSteps step).traceTable.getD i Registers.zeros = strayRow nSteps step i := by
  rw [List.getD_eq_getElem?_getD, strayAt_row inside, Option.getD_some]

theorem strayAt_accepted {nSteps : Nat} (some : 1 < nSteps) (step : Nat) :
    verifyConstraints (strayAt nSteps step) = .ok true := by
  have last : listIndex (strayAt nSteps step).traceTable ((nSteps : Int) - 1) =
      (strayAt nSteps step).traceTable[nSteps - 1]? := by
    rw [← listIndex_nat]
    congr 1
    omega
  apply (verifyConstraints_iff _).mpr
  constructor
  · refine ⟨_, strayAt_row (Nat.zero_lt_of_lt some) step, ?_, ?_⟩
    · simp [strayRow]
    · simp only [strayRow, ne_eq, not_true_eq_false, and_false, false_or]
      exact if_neg (by omega)
  · refine ⟨_, last.trans (strayAt_row (by omega) step), ?_⟩
    exact if_pos (Or.inr (by omega))

theorem kept_strayAt {rule : Registers → Registers → Prop} {nSteps step : Nat}
    (kept : Kept rule nSteps step) (inner : step + 1 < nSteps) :
    rule (strayRow nSteps step step) (strayRow nSteps step (step + 1)) := by
  have here := kept (strayAt nSteps step) rfl (strayAt_accepted (by omega) step) inner
  rwa [strayAt_getD (by omega), strayAt_getD inner] at here

/-- Beside the first row and the last nothing is checked: a trace of two rows and more
    need not follow the rules, and which of them it must follow where is what the two
    rows give. -/
theorem rules_kept_iff (nSteps : Nat) :
    ((∀ trace : ExecutionTrace, trace.nSteps = nSteps → verifyConstraints trace = .ok true →
      ObeysRules trace) ↔ nSteps ≤ 1) ∧
    ∀ step, (Kept Typed nSteps step ↔ nSteps ≤ step + 1) ∧
      (Kept Persists nSteps step ↔ nSteps ≤ step + 1 ∨ step = 0 ∨ step + 2 = nSteps) ∧
      (Kept Advances nSteps step ↔ nSteps ≤ step + 1 ∨ step = 0) := by
  have typed (step : Nat) : Kept Typed nSteps step ↔ nSteps ≤ step + 1 := by
    constructor
    · intro kept
      by_contra inner
      have here := kept_strayAt kept (Nat.lt_of_not_le inner)
      simp [Typed, strayRow] at here
    · intro outside trace _ _ inner
      exact absurd inner (Nat.not_lt.mpr outside)
  constructor
  · constructor
    · intro obeys
      exact (typed 0).mp fun trace size accepted inner =>
        (obeys trace size accepted 0 (size ▸ inner)).typed
    · intro few trace size _ step inner
      omega
  · refine fun step => ⟨typed step, ?_, ?_⟩
    · constructor
      · intro kept
        by_contra other
        have here := kept_strayAt kept (by omega)
        have set : (step = step ∧ step ≠ 0) ∨ step + 1 = nSteps := Or.inl ⟨rfl, by omega⟩
        have reset : ¬ ((step + 1 = step ∧ step + 1 ≠ 0) ∨ step + 1 + 1 = nSteps) := by omega
        dsimp only [Persists, strayRow] at here
        rw [if_pos set, if_neg reset] at here
        exact absurd (here rfl) (by decide)
      · rintro (outside | rfl | last) trace size accepted inner
        · omega
        · obtain ⟨⟨row, first, _, unfound⟩, _⟩ := (verifyConstraints_iff trace).mp accepted
          rw [Persists, List.getD_eq_getElem?_getD, first, Option.getD_some, unfound]
          intro wrong
          exact absurd wrong (by decide)
        · obtain ⟨_, row, held, found⟩ := (verifyConstraints_iff trace).mp accepted
          have place : (trace.nSteps : Int) - 1 = ((step + 1 : Nat) : Int) := by omega
          rw [place, listIndex_nat] at held
          intro _
          rw [List.getD_eq_getElem?_getD, held, Option.getD_some, found]
    · constructor
      · intro kept
        by_contra other
        have here := kept_strayAt kept (by omega)
        have further : step = step ∧ step ≠ 0 := ⟨rfl, by omega⟩
        have back : ¬ (step + 1 = step ∧ step + 1 ≠ 0) := by omega
        dsimp only [Advances, strayRow] at here
        rw [if_pos further, if_neg back] at here
        exact absurd here (by decide)
      · rintro (outside | rfl) trace size accepted inner
        · omega
        · obtain ⟨⟨row, first, begins, _⟩, _⟩ := (verifyConstraints_iff trace).mp accepted
          rw [Advances, List.getD_eq_getElem?_getD, first, Option.getD_some, begins]
          exact UInt64.zero_le

/-- A node type that does not exist, a flag that is reset and a path that goes back. -/
def strayTrace : ExecutionTrace where
  traceTable := [⟨0, 0, 0, 0, 0, 3, 0, 0⟩, ⟨0, 0, 5, 1, 0, 1, 0, 0⟩, ⟨0, 0, 4, 0, 0, 1, 0, 0⟩,
    ⟨0, 0, 4, 1, 0, 1, 0, 0⟩]
  nSteps := 4
  publicInputs := ⟨[], [], []⟩

theorem strayTrace_accepted :
    verifyConstraints strayTrace = .ok true ∧ ¬ ObeysRules strayTrace := by
  constructor
  · decide
  · intro rules
    have typed := (rules 0 (by decide)).typed
    revert typed
    unfold Typed
    decide

end Transitions

/- True lookups. -/
section Lookups

/-- An accepted trace is one of a true lookup, for these nodes, key and value. -/
def ProvesLookup (keccak : Bytes → Bytes) (sha256 : Digest) (proofNodes : List Bytes)
    (key value : Bytes) (nSteps : Nat) : Prop :=
  ∀ trace, generateTrace sha256 proofNodes key value nSteps = .ok trace →
    validateTrace trace = .ok true →
    verifySingleProof keccak proofNodes key value (proofNodes.head?.map keccak) = .ok true

theorem generated_accepted (sha256 : Digest) {proofNodes : List Bytes} (key value : Bytes)
    {nSteps : Nat} (power : nSteps.isPowerOfTwo) (room : proofNodes.length + 1 < nSteps) :
    ∃ trace, generateTrace sha256 proofNodes key value nSteps = .ok trace ∧
      validateTrace trace = .ok true := by
  obtain ⟨trace, generated, steps, _, checked⟩ := generateTrace_valid sha256 key value power room
  have exact := (Nat.ne_zero_and_sub_one_eq_zero_iff_isPowerOfTwo.mpr power).2
  refine ⟨trace, generated, ?_⟩
  rw [validateTrace, steps, if_neg (not_not_intro exact), checked]

theorem provesLookup_iff (keccak : Bytes → Bytes) (sha256 : Digest) {proofNodes : List Bytes}
    (key value : Bytes) {nSteps : Nat} (power : nSteps.isPowerOfTwo)
    (room : proofNodes.length + 1 < nSteps) :
    ProvesLookup keccak sha256 proofNodes key value nSteps ↔
      verifySingleProof keccak proofNodes key value (proofNodes.head?.map keccak) = .ok true := by
  constructor
  · intro sound
    obtain ⟨trace, generated, accepted⟩ := generated_accepted sha256 key value power room
    exact sound trace generated accepted
  · intro verified _ _ _
    exact verified

theorem own_root {keccak : Bytes → Bytes} {proofNodes : List Bytes} {key value : Bytes}
    {root : Option Bytes} (accepted : verifySingleProof keccak proofNodes key value root = .ok true) :
    verifySingleProof keccak proofNodes key value (proofNodes.head?.map keccak) = .ok true := by
  cases proofNodes with
  | nil => cases accepted
  | cons first rest =>
    have passed : ¬ ((intoReferenceFromEncoded keccak first).length = 32 ∧
        some (intoReferenceFromEncoded keccak first) ≠ some (keccak first)) := by
      rintro ⟨size, other⟩
      unfold intoReferenceFromEncoded at size other
      split at size
      · rename_i long
        simp [long] at other
      · omega
    rw [show (first :: rest).head?.map keccak = some (keccak first) from rfl]
    unfold verifySingleProof at accepted ⊢
    obtain ⟨path, made, walked⟩ := ok_of_bind accepted
    simp only at walked
    split at walked
    · obtain ⟨_, _, refused⟩ := ok_of_bind walked
      cases refused
    · simp only [made, bind, Except.bind, if_neg passed]
      exact walked

/-- No nodes make the traces of all values those of true lookups. The nodes of a stored
    key do so for the stored value only. -/
theorem accepted_lookup_iff (keccak : Keccak) (sha256 : Digest) {nSteps : Nat}
    (power : nSteps.isPowerOfTwo) :
    (∀ (proofNodes : List Bytes) (key : Bytes), proofNodes.length + 1 < nSteps →
      ¬ ∀ value, ProvesLookup keccak.hash sha256 proofNodes key value nSteps) ∧
    ∀ run : Run, (∀ e ∈ run, 32 ≤ e.2.bytes.length) →
      Separates keccak.hash (storedEncodings (insertRun (keccakScheme keccak.hash) run).2) →
      ∀ key v, lastInserted run key = some v →
        ∃ proofNodes, getProofTree (keccakScheme keccak.hash) false
            (insertRun (keccakScheme keccak.hash) run).2 key = .ok proofNodes ∧
          (proofNodes.length + 1 < nSteps → ∀ value,
            ProvesLookup keccak.hash sha256 proofNodes key value nSteps ↔ value = v) := by
  constructor
  · intro proofNodes key room sound
    have first := (provesLookup_iff keccak.hash sha256 key [] power room).mp (sound [])
    have second := (provesLookup_iff keccak.hash sha256 key [0] power room).mp (sound [0])
    cases (single_verdict first [0]).1.symm.trans second
  · intro run long distinct key v current
    obtain ⟨_, shown⟩ := keccak_run keccak long distinct
    obtain ⟨proofNodes, made, accepted⟩ := proof_of_key (good_run keccak distinct) shown
      ((trieOf_lookup run key).trans current)
    refine ⟨proofNodes, made, fun room value => ?_⟩
    rw [provesLookup_iff keccak.hash sha256 key value power room,
      (single_verdict (own_root accepted) value).1]
    simp

theorem accepted_lookup_sample :
    (¬ ∀ value, ProvesLookup sampleKeccak.hash counting [[0xc1]] [0x12] value 16) ∧
    ∃ proofNodes, getProofTree (keccakScheme sampleKeccak.hash) false
        (insertRun (keccakScheme sampleKeccak.hash) sampleRun).2 [0x12, 0x34] = .ok proofNodes ∧
      ∀ value, ProvesLookup sampleKeccak.hash counting proofNodes [0x12, 0x34] value 16 ↔
        value = sampleBytes 98 := by
  obtain ⟨never, stored⟩ := accepted_lookup_iff sampleKeccak counting
    (show (16 : Nat).isPowerOfTwo from ⟨4, rfl⟩)
  obtain ⟨proofNodes, made, exact⟩ := stored sampleRun (by decide) (by decide +kernel) [0x12, 0x34]
    (sampleBytes 98) (by decide)
  have few : ((getProofTree (keccakScheme sampleKeccak.hash) false
      (insertRun (keccakScheme sampleKeccak.hash) sampleRun).2 [0x12, 0x34]).toOption.getD []).length
        + 1 < 16 := by decide +kernel
  rw [made] at few
  exact ⟨never _ _ (by decide), proofNodes, made, exact few⟩

def lettersLeaf : Bytes := [0xc4, 0x82, 0x20, 0x12, 0x61]

theorem lookup_of_other_value : ∃ trace,
    generateTrace counting [lettersLeaf] [0x12] [0x62] 4 = .ok trace ∧
    validateTrace trace = .ok true ∧
    verifySingleProof counting.hash [lettersLeaf] [0x12] [0x62]
      ([lettersLeaf].head?.map counting.hash) = .ok false := by
  obtain ⟨trace, generated, accepted⟩ := generated_accepted counting [0x12] [0x62]
    (show (4 : Nat).isPowerOfTwo from ⟨2, rfl⟩) (show [lettersLeaf].length + 1 < 4 by decide)
  exact ⟨trace, generated, accepted, by decide⟩

end Lookups

end TraceChecks
