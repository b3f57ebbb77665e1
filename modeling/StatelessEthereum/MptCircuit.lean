import StatelessEthereum.FiatShamir

/- The execution trace of a lookup (zkSTARK/circuits/mpt_circuit.py). The values
   of the transition constraints play no part here: the code computes them and
   looks at none. -/
namespace MptCircuit
open BigEndian PythonError FiatShamir

structure Registers where
  /-- Current node hash -/
  r0 : UInt64
  r1 : UInt64
  /-- Path nibble position -/
  r2 : UInt64
  /-- Value found flag -/
  r3 : UInt64
  /-- Current nibble -/
  r4 : UInt64
  /-- Node type -/
  r5 : UInt64
  r6 : UInt64
  r7 : UInt64
  deriving DecidableEq

def Registers.zeros : Registers := ⟨0, 0, 0, 0, 0, 0, 0, 0⟩

def Registers.cells (row : Registers) : List UInt64 :=
  [row.r0, row.r1, row.r2, row.r3, row.r4, row.r5, row.r6, row.r7]

def N_REGISTERS : Nat := 8

structure PublicInputs where
  rootHash : Bytes
  key : Bytes
  value : Bytes
  deriving DecidableEq

structure ExecutionTrace where
  traceTable : List Registers
  nSteps : Nat
  publicInputs : PublicInputs

def keyToNibbles (key : Bytes) : List Nat :=
  key.flatMap fun byte => [byte.toNat / 16, byte.toNat % 16]

/-- Branch 0, extension 1, leaf 2, guessed from the length. -/
def detectNodeType (nodeData : Bytes) : Nat :=
  if nodeData = [] then 2
  else if 100 < nodeData.length then 0
  else if 32 < nodeData.length then 1
  else 2

def getExtensionLength (_ : Bytes) : Nat := 1

section Trace
variable (sha256 : Digest)

def hashNode (nodeData : Bytes) : UInt64 :=
  if nodeData = [] then 0
  else UInt64.ofNat (ofBytes ((sha256.hash nodeData).take 8) % FIELD_PRIME_INT)

/-- The loop state of `generate_trace`. -/
structure Traversal where
  trace : List Registers
  currentStep : Nat
  pathPos : Nat

def nodeRow (pathNibbles : List Nat) (value nodeData : Bytes) (pathPos : Nat) (row : Registers) :
    Registers × Nat :=
  let nodeType := detectNodeType nodeData
  let row := { row with
    r0 := hashNode sha256 nodeData, r2 := UInt64.ofNat pathPos, r5 := UInt64.ofNat nodeType }
  if nodeType = 2 then ({ row with r3 := 1, r6 := hashNode sha256 value }, pathPos)
  else if nodeType = 1 then
    let extLen := getExtensionLength nodeData
    ({ row with r7 := UInt64.ofNat extLen }, pathPos + extLen)
  else
    match pathNibbles[pathPos]? with
    | some nibble => ({ row with r4 := UInt64.ofNat nibble }, pathPos + 1)
    | none => (row, pathPos)

/-- One node of the proof, while there are rows left. The next row gets the path
    position at once. -/
def visitNode (nSteps : Nat) (pathNibbles : List Nat) (value : Bytes) (w : Traversal)
    (nodeData : Bytes) : Traversal :=
  if nSteps ≤ w.currentStep then w
  else
    let (row, pathPos) := nodeRow sha256 pathNibbles value nodeData w.pathPos
      (w.trace.getD w.currentStep Registers.zeros)
    let trace := w.trace.set w.currentStep row
    let currentStep := w.currentStep + 1
    { trace := trace.modify currentStep fun next => { next with r2 := UInt64.ofNat pathPos }
      currentStep, pathPos }

/-- The rows from `current_step` on repeat the one before, with the flag set. -/
def repeatRow (currentStep : Nat) (trace : List Registers) (i : Nat) : List Registers :=
  trace.set i { trace.getD (currentStep - 1) Registers.zeros with r3 := 1 }

def startTraversal (rootHash : Bytes) (nSteps : Nat) : Traversal :=
  let first : Registers := { Registers.zeros with r0 := hashNode sha256 rootHash }
  { trace := (List.replicate nSteps Registers.zeros).set 0 first, currentStep := 1, pathPos := 0 }

def generateTrace (proofNodes : List Bytes) (key value : Bytes) (nSteps : Nat) :
    Except PyError ExecutionTrace :=
  let nSteps := if nSteps &&& (nSteps - 1) ≠ 0 then nSteps.nextPowerOfTwo else nSteps
  if nSteps = 0 then .error .indexError
  else
    let rootHash := proofNodes.headD []
    let w := proofNodes.foldl (visitNode sha256 nSteps (keyToNibbles key) value)
      (startTraversal sha256 rootHash nSteps)
    let free := List.range' w.currentStep (nSteps - w.currentStep)
    .ok { traceTable := free.foldl (repeatRow w.currentStep) w.trace, nSteps
          publicInputs := { rootHash, key, value } }

end Trace

/-- (step, register, expected value) -/
def boundaryConstraints (trace : ExecutionTrace) : List (Int × Nat × UInt64) :=
  let lastStep : Int := trace.nSteps - 1
  [(0, 2, 0), (0, 3, 0), (lastStep, 3, 1)]

def checkBoundary (table : List Registers) : List (Int × Nat × UInt64) → Except PyError Bool
  | [] => .ok true
  | (step, reg, expected) :: rest =>
    match listIndex table step with
    | none => .error .indexError
    | some row =>
      if row.cells.getD reg 0 ≠ expected then .ok false else checkBoundary table rest

/-- Where the boundary is met all steps below `n_steps` are in the table, so the
    loop over the transitions raises no `IndexError`. -/
def verifyConstraints (trace : ExecutionTrace) : Except PyError Bool :=
  checkBoundary trace.traceTable (boundaryConstraints trace)

/-- What is checked: the path position and the flag of the first row, and the
    flag of the last one. -/
structure BoundaryMet (trace : ExecutionTrace) : Prop where
  start : ∃ row, trace.traceTable[0]? = some row ∧ row.r2 = 0 ∧ row.r3 = 0
  found : ∃ row, listIndex trace.traceTable (trace.nSteps - 1) = some row ∧ row.r3 = 1

theorem verifyConstraints_iff (trace : ExecutionTrace) :
    verifyConstraints trace = .ok true ↔ BoundaryMet trace := by
  have shape : BoundaryMet trace ↔
      (∃ row, trace.traceTable[0]? = some row ∧ row.r2 = 0 ∧ row.r3 = 0) ∧
      ∃ row, listIndex trace.traceTable (trace.nSteps - 1) = some row ∧ row.r3 = 1 :=
    ⟨fun met => ⟨met.start, met.found⟩, fun met => ⟨met.1, met.2⟩⟩
  have first : listIndex trace.traceTable 0 = trace.traceTable[0]? := listIndex_nat _ 0
  rw [shape]
  simp only [verifyConstraints, boundaryConstraints, checkBoundary, first]
  cases trace.traceTable[0]? with
  | none => simp
  | some row =>
    by_cases begins : row.r2 = 0 ∧ row.r3 = 0
    · cases listIndex trace.traceTable (trace.nSteps - 1) with
      | none => simp [Registers.cells, begins]
      | some last => by_cases found : last.r3 = 1 <;> simp [Registers.cells, begins, found]
    · rcases not_and_or.mp begins with other | other
      · simp [Registers.cells, other]
      · by_cases position : row.r2 = 0 <;> simp [Registers.cells, position, other]

/- The first row is never written again, and the last one gets its flag when
   the nodes leave it free. -/

/-- After `seen` nodes. -/
structure Under (first : Registers) (nSteps seen : Nat) (w : Traversal) : Prop where
  size : w.trace.length = nSteps
  first_row : w.trace.getD 0 Registers.zeros = first
  begun : 0 < w.currentStep
  behind : w.currentStep ≤ seen + 1

theorem startTraversal_under (sha256 : Digest) (rootHash : Bytes) {nSteps : Nat}
    (positive : 0 < nSteps) :
    Under { Registers.zeros with r0 := hashNode sha256 rootHash } nSteps 0
      (startTraversal sha256 rootHash nSteps) where
  size := by simp [startTraversal]
  first_row := by simp [startTraversal, List.getD_eq_getElem?_getD, positive]
  begun := Nat.zero_lt_one
  behind := Nat.le_refl 1

theorem visitNode_under (sha256 : Digest) {first : Registers} {nSteps seen : Nat}
    {w : Traversal} (under : Under first nSteps seen w) (pathNibbles : List Nat)
    (value nodeData : Bytes) :
    Under first nSteps (seen + 1) (visitNode sha256 nSteps pathNibbles value w nodeData) := by
  obtain ⟨size, first_row, begun, behind⟩ := under
  unfold visitNode
  split
  · exact ⟨size, first_row, begun, Nat.le_succ_of_le behind⟩
  · have other : w.currentStep ≠ 0 := Nat.ne_of_gt begun
    constructor
    · simpa using size
    · simpa [List.getD_eq_getElem?_getD, List.getElem?_modify, List.getElem?_set, other]
        using first_row
    · exact Nat.succ_pos _
    · exact Nat.succ_le_succ behind

theorem traversal_under (sha256 : Digest) {first : Registers} {nSteps seen : Nat} {w : Traversal}
    (under : Under first nSteps seen w) (pathNibbles : List Nat) (value : Bytes)
    (proofNodes : List Bytes) :
    Under first nSteps (seen + proofNodes.length)
      (proofNodes.foldl (visitNode sha256 nSteps pathNibbles value) w) := by
  induction proofNodes generalizing seen w with
  | nil => exact under
  | cons nodeData rest ih =>
    have step := ih (visitNode_under sha256 under pathNibbles value nodeData)
    rw [List.length_cons, Nat.add_comm rest.length, ← Nat.add_assoc]
    exact step

theorem free_rows (currentStep count i : Nat) (trace : List Registers)
    (inside : i < trace.length) :
    let filled := (List.range' currentStep count).foldl (repeatRow currentStep) trace
    filled.length = trace.length ∧
    (i < currentStep → filled.getD i Registers.zeros = trace.getD i Registers.zeros) ∧
    (currentStep ≤ i → i < currentStep + count → (filled.getD i Registers.zeros).r3 = 1) := by
  induction count with
  | zero =>
    refine ⟨rfl, fun _ => rfl, ?_⟩
    intro low high
    omega
  | succ count ih =>
    obtain ⟨size, before, flagged⟩ := ih
    rw [List.range'_concat, Nat.one_mul, List.foldl_append, List.foldl_cons, List.foldl_nil]
    generalize (List.range' currentStep count).foldl (repeatRow currentStep) trace = filled
      at size before flagged
    simp only [repeatRow, List.getD_eq_getElem?_getD, List.getElem?_set, List.length_set]
      at before flagged ⊢
    refine ⟨size, ?_, ?_⟩
    · intro low
      rw [if_neg (by omega)]
      exact before low
    · intro low high
      by_cases last : currentStep + count = i
      · rw [if_pos last, if_pos (by omega)]
        rfl
      · rw [if_neg last]
        exact flagged low (by omega)

theorem generateTrace_valid (sha256 : Digest) {proofNodes : List Bytes} (key value : Bytes)
    {nSteps : Nat} (power : nSteps.isPowerOfTwo) (room : proofNodes.length + 1 < nSteps) :
    ∃ trace, generateTrace sha256 proofNodes key value nSteps = .ok trace ∧
      trace.nSteps = nSteps ∧ trace.traceTable.length = nSteps ∧
      verifyConstraints trace = .ok true := by
  obtain ⟨positive, exact⟩ := Nat.ne_zero_and_sub_one_eq_zero_iff_isPowerOfTwo.mpr power
  unfold generateTrace
  simp only [exact, ne_eq, not_true_eq_false, if_false, positive]
  refine ⟨_, rfl, rfl, ?_⟩
  have begins := startTraversal_under sha256 (proofNodes.headD []) (Nat.pos_of_ne_zero positive)
  obtain ⟨size, first_row, begun, behind⟩ :=
    traversal_under sha256 begins (keyToNibbles key) value proofNodes
  generalize proofNodes.foldl (visitNode sha256 nSteps (keyToNibbles key) value) _ = w
    at size first_row begun behind ⊢
  obtain ⟨filled, before, _⟩ :=
    free_rows w.currentStep (nSteps - w.currentStep) 0 w.trace (by omega)
  obtain ⟨_, _, flagged⟩ :=
    free_rows w.currentStep (nSteps - w.currentStep) (nSteps - 1) w.trace (by omega)
  have start := (before begun).trans first_row
  have found := flagged (by omega) (by omega)
  generalize (List.range' w.currentStep (nSteps - w.currentStep)).foldl
    (repeatRow w.currentStep) w.trace = table at filled start found ⊢
  refine ⟨filled.trans size, ?_⟩
  have held {i : Nat} (inside : i < nSteps) :
      table[i]? = some (table.getD i Registers.zeros) := by
    rw [List.getD_eq_getElem?_getD, List.getElem?_eq_getElem (by omega), Option.getD_some]
  have last : listIndex table ((nSteps : Int) - 1) = table[nSteps - 1]? := by
    rw [← listIndex_nat]
    congr 1
    omega
  apply (verifyConstraints_iff _).mpr
  constructor
  · exact ⟨_, held (Nat.pos_of_ne_zero positive), by rw [start]; rfl, by rw [start]; rfl⟩
  · exact ⟨_, last.trans (held (by omega)), found⟩

end MptCircuit
