import StatelessEthereum.StarkRuns
import StatelessEthereum.StarkVerdicts

/- An honest proof also passes the checks that the verifier leaves out: every opening
   leads to the trace commitment, every composition value combines the row that was
   opened, and the FRI layers are committed to and fold to each other. -/
namespace StarkConsistency
open BigEndian PythonError StateEffect LockStep FiatShamir LowDegree FriProtocol MptCircuit
open HashPaths CommitmentPaths CommitmentRows StarkMerkle StarkVerdicts StarkRuns
variable {secureHash sha256 : Digest} {ops : FieldOps} {limit : Nat}

/- The rows. -/

/-- A row of a table of `2 ^ k` rows opens with the siblings of its leaf. -/
theorem row_opens {columns : List (List UInt64)} {k idx : Nat} (table : Table columns (2 ^ k))
    {tree : List (List Bytes)} {root : Bytes} (built : commitmentTree sha256 columns = .ok tree)
    (top : topOf tree = .ok root) (inside : idx < 2 ^ k) :
    verifyQuery sha256 root idx (rowOf columns idx) (siblings tree.dropLast idx) = true := by
  obtain ⟨height, rises, made⟩ := commitmentTree_levels sha256 table
  obtain rfl := rises_unique rises (rises_two_pow k)
  cases built.symm.trans made
  cases top.symm.trans (topOf_levels rises)
  rw [dropLast_levels, siblings_copath, verifyQuery, climb_same]
  have start : rowHash sha256 (rowOf columns idx) =
      node (joinHash sha256.hash) (rowLeaf sha256 columns) (2 ^ height) 0 idx := rfl
  rw [start, node_opens (Nat.zero_add height) inside]
  exact beq_self_eq_true _

theorem addColumns_at (alpha : UInt64) {columns : List (List UInt64)} {n i : Nat} (inside : i < n)
    (even : ∀ col ∈ columns, col.length = n) (alphaPower : UInt64) {composition : List UInt64}
    (size : composition.length = n) :
    (addColumns ops alpha columns alphaPower composition).getD i 0 =
      combination ops alpha (rowOf columns i) alphaPower (composition.getD i 0) := by
  induction columns generalizing alphaPower composition with
  | nil => rfl
  | cons col rest ih =>
    have long := even col List.mem_cons_self
    have next : (List.zipWith (fun c x => ops.add c (ops.mul alphaPower x)) composition
        col).length = n := by
      rw [List.length_zipWith, size, long, Nat.min_self]
    unfold addColumns
    rw [ih (fun c member => even c (List.mem_cons_of_mem _ member)) _ next]
    have entry : (List.zipWith (fun c x => ops.add c (ops.mul alphaPower x)) composition
        col).getD i 0 = ops.add (composition.getD i 0) (ops.mul alphaPower (col.getD i 0)) := by
      rw [List.getD_eq_getElem _ _ (by omega), List.getElem_zipWith,
        List.getD_eq_getElem _ _ (by omega), List.getD_eq_getElem _ _ (by omega)]
    rw [entry]
    rfl

theorem composition_at {columns : List (List UInt64)} {n i : Nat} (table : Table columns n)
    (inside : i < n) (alpha : UInt64) :
    (computeCompositionPolynomial ops columns alpha).getD i 0 =
      combination ops alpha (rowOf columns i) 1 0 := by
  obtain ⟨col, rest, rfl⟩ := List.exists_cons_of_ne_nil table.wide
  have head : ((col :: rest).headD []).length = n := table.rectangular col List.mem_cons_self
  have size : (List.replicate ((col :: rest).headD []).length (0 : UInt64)).length = n := by
    rw [List.length_replicate]
    exact head
  have zero : (List.replicate ((col :: rest).headD []).length (0 : UInt64)).getD i 0 = 0 := by
    rw [List.getD_eq_getElem _ _ (by omega), List.getElem_replicate]
  unfold computeCompositionPolynomial
  rw [addColumns_at alpha inside table.rectangular 1 size, zero]

theorem answer_opens {columns : List (List UInt64)} {k idx : Nat} (table : Table columns (2 ^ k))
    {tree : List (List Bytes)} {root : Bytes} (built : commitmentTree sha256 columns = .ok tree)
    (top : topOf tree = .ok root) (inside : idx < 2 ^ k) (alpha : UInt64) :
    Opens sha256 ops root alpha idx
      (answerAt columns tree (computeCompositionPolynomial ops columns alpha) idx) :=
  ⟨_, _, _, rfl, rfl, row_opens table built top inside,
    congrArg toInt (composition_at table inside alpha)⟩

/- The transcript of a proof. -/

def friChallenges (secureHash : Digest) (proof : FRIProof) : Talk (List UInt64) := do
  let alphas ← rebuildAlphas secureHash proof.layerCommitments
  append secureHash (ascii "fri_final") (tobytes proof.finalPolynomial)
  pure alphas

theorem prove_layers (poly : List UInt64) :
    Replays (prove secureHash sha256 ops poly) (friChallenges secureHash) fun proof alphas =>
      FoldsTo sha256 ops proof.finalPolynomial proof.layerPolynomials proof.layerCommitments
        alphas := by
  unfold prove
  apply replays_bind (fun proof alphas => do
    append secureHash (ascii "fri_final") (tobytes proof.finalPolynomial)
    pure alphas) (foldLayers_replays Nat.le.refl)
  intro proof alphas known
  apply replays_bind_same fun proof _ => pure alphas
  intro _
  exact replays_pure rfl ⟨rfl, rfl, known.folds⟩

def drawAll (secureHash : Digest) (limit : Nat) (publicInputs : PublicInputs) (proof : StarkProof) :
    Talk (Challenges × List Nat) := do
  appendPublic secureHash publicInputs
  append secureHash (ascii "trace_commitment") proof.traceCommitment
  let alpha ← challenge secureHash (ascii "alpha")
  let alphas ← friChallenges secureHash proof.friProof
  let indices ← challengeIndices secureHash limit proof.params.nQueries proof.compositionDegree
  pure (⟨alpha, alphas⟩, indices)

theorem drawAll_parts (publicInputs : PublicInputs) (proof : StarkProof) :
    drawAll secureHash limit publicInputs proof =
      (challengesOf secureHash publicInputs proof >>= fun challenges =>
        challengeIndices secureHash limit proof.params.nQueries proof.compositionDegree >>=
          fun indices => pure (challenges, indices)) := by
  have regroup : LawfulMonad Talk := effect_lawful
  unfold drawAll challengesOf friChallenges
  simp only [bind_assoc, pure_bind]

structure Honest (sha256 : Digest) (ops : FieldOps) (proof : StarkProof)
    (drawn : Challenges × List Nat) : Prop where
  opens : List.Forall₂ (Opens sha256 ops proof.traceCommitment drawn.1.alpha) drawn.2
    proof.queryResponses
  folds : FoldsTo sha256 ops proof.friProof.finalPolynomial proof.friProof.layerPolynomials
    proof.friProof.layerCommitments drawn.1.alphas

/-- By the steps of the prover: the other side draws what the prover has drawn. -/
theorem starkProof_honest {params : SecurityParameters} {trace : ExecutionTrace} {k t : Nat}
    (power : trace.traceTable.length = 2 ^ k) (blowup : params.blowupFactor = 2 ^ t) :
    Replays (starkProof secureHash sha256 ops limit params trace)
      (drawAll secureHash limit trace.publicInputs) (Honest sha256 ops) := by
  unfold starkProof
  apply replays_bind_same fun proof _ => do
    append secureHash (ascii "trace_commitment") proof.traceCommitment
    let alpha ← challenge secureHash (ascii "alpha")
    let alphas ← friChallenges secureHash proof.friProof
    let indices ← challengeIndices secureHash limit proof.params.nQueries proof.compositionDegree
    pure (⟨alpha, alphas⟩, indices)
  intro _
  apply replays_bind_lift
  intro traceLde extended
  rw [blowup] at extended
  have table := extended_table power extended
  apply replays_bind_lift
  intro tree built
  apply replays_bind_lift
  intro traceCommitment top
  apply replays_bind_same fun proof _ => do
    let alpha ← challenge secureHash (ascii "alpha")
    let alphas ← friChallenges secureHash proof.friProof
    let indices ← challengeIndices secureHash limit proof.params.nQueries proof.compositionDegree
    pure (⟨alpha, alphas⟩, indices)
  intro _
  apply replays_bind_same fun proof alpha => do
    let alphas ← friChallenges secureHash proof.friProof
    let indices ← challengeIndices secureHash limit proof.params.nQueries proof.compositionDegree
    pure (⟨alpha, alphas⟩, indices)
  intro alpha
  apply replays_bind (fun proof alphas => do
    let indices ← challengeIndices secureHash limit proof.params.nQueries proof.compositionDegree
    pure (⟨alpha, alphas⟩, indices)) (prove_layers _)
  intro friProof alphas folds
  have long := composition_length ops table alpha
  have sampled : Replays
      (challengeIndices secureHash limit params.nQueries
        (computeCompositionPolynomial ops traceLde alpha).length)
      (fun _ => challengeIndices secureHash limit params.nQueries
        (computeCompositionPolynomial ops traceLde alpha).length)
      fun indices indices' => indices = indices' ∧ ∀ i ∈ indices, i < 2 ^ (k + t) := by
    intro s indices u run
    have inside := (challengeIndices_sampled run).inside
    rw [long, Int.toNat_natCast] at inside
    exact ⟨indices, run, rfl, inside⟩
  apply replays_bind (fun proof indices => pure (⟨alpha, alphas⟩, indices)) sampled
  rintro indices _ ⟨rfl, inside⟩
  have answers : indices.mapM (respond traceLde tree
      (computeCompositionPolynomial ops traceLde alpha)) =
        .ok (indices.map (answerAt traceLde tree
          (computeCompositionPolynomial ops traceLde alpha))) := by
    apply mapM_of_each
    rw [List.forall₂_map_right_iff, List.forall₂_same]
    intro idx member
    exact respond_answers table tree long (inside idx member)
  rw [answers]
  apply replays_bind_lift
  intro queryResponses same
  cases same
  refine replays_pure rfl ⟨rfl, rfl, rfl, rfl, rfl, ?_, folds⟩
  rw [List.forall₂_map_right_iff, List.forall₂_same]
  intro idx member
  exact answer_opens table built top (inside idx member) alpha

/- Whole lookups. -/

theorem computeParameters_blowup {securityBits : Int} {traceLength : Nat}
    {params : SecurityParameters} (run : computeParameters securityBits traceLength = .ok params) :
    ∃ t, params.blowupFactor = 2 ^ t := by
  unfold computeParameters at run
  simp only at run
  split at run
  · cases run
  · cases run
    dsimp only
    split
    · exact ⟨3, rfl⟩
    · split
      · exact ⟨3, rfl⟩
      · exact ⟨2, rfl⟩

theorem generateTrace_rows {proofNodes : List Bytes} {key value : Bytes} {nSteps : Nat}
    {trace : ExecutionTrace} (run : generateTrace sha256 proofNodes key value nSteps = .ok trace) :
    ∃ k, trace.traceTable.length = 2 ^ k := by
  unfold generateTrace at run
  simp only at run
  have rounded
      (some : ¬ (if nSteps &&& (nSteps - 1) ≠ 0 then nSteps.nextPowerOfTwo else nSteps) = 0) :
      (if nSteps &&& (nSteps - 1) ≠ 0 then nSteps.nextPowerOfTwo else nSteps).isPowerOfTwo := by
    by_cases ragged : nSteps &&& (nSteps - 1) ≠ 0
    · rw [if_pos ragged]
      exact Nat.isPowerOfTwo_nextPowerOfTwo nSteps
    · rw [if_neg ragged] at some ⊢
      exact Nat.ne_zero_and_sub_one_eq_zero_iff_isPowerOfTwo.mp ⟨some, not_not.mp ragged⟩
  generalize (if nSteps &&& (nSteps - 1) ≠ 0 then nSteps.nextPowerOfTwo else nSteps) = rows
    at run rounded
  split at run
  · cases run
  · rename_i some
    cases run
    obtain ⟨k, power⟩ := rounded some
    have begins := startTraversal_under sha256 (proofNodes.headD []) (Nat.pos_of_ne_zero some)
    have under := traversal_under sha256 begins (keyToNibbles key) value proofNodes
    generalize proofNodes.foldl (visitNode sha256 rows (keyToNibbles key) value) _ = w at under ⊢
    obtain ⟨filled, _⟩ := free_rows w.currentStep (rows - w.currentStep) 0 w.trace (by
      rw [under.size]
      exact Nat.pos_of_ne_zero some)
    exact ⟨k, (filled.trans under.size).trans power⟩

/-- A proof that is made of a trace agrees with itself all through. -/
theorem made_consistent {params : SecurityParameters} {trace : ExecutionTrace} {k t : Nat}
    (power : trace.traceTable.length = 2 ^ k) (blowup : params.blowupFactor = 2 ^ t)
    {proof : StarkProof} {u : FiatShamirTranscript}
    (proved : starkProof secureHash sha256 ops limit params trace (start secureHash none) =
      (.ok proof, u)) :
    Consistent secureHash sha256 ops limit ⟨proof, trace.publicInputs⟩ := by
  obtain ⟨⟨challenges, indices⟩, drawn, honest⟩ := starkProof_honest power blowup
    (start secureHash none) proof _ proved
  rw [drawAll_parts] at drawn
  obtain ⟨_, s, first, rest⟩ := bind_inv drawn
  obtain ⟨_, v, sampled, rest⟩ := bind_inv rest
  cases rest
  exact ⟨challenges, indices, ⟨s, _, first, sampled⟩, honest.opens, honest.folds⟩

/-- Whatever the nodes, the key and the value: a proof that the prover returns is
    consistent all through. -/
theorem honest_proof_consistent (secureHash sha256 : Digest) (ops : FieldOps) (limit : Nat)
    {securityBits : Int} {traceLength : Nat} {proofNodes : List Bytes} {key value : Bytes}
    {result : STARKProofResult}
    (run : proveLookup secureHash sha256 ops limit securityBits traceLength proofNodes key value =
      .ok result) : Consistent secureHash sha256 ops limit result := by
  unfold proveLookup at run
  obtain ⟨params, set, run⟩ := ok_of_bind run
  obtain ⟨trace, made, run⟩ := ok_of_bind run
  obtain ⟨valid, _, run⟩ := ok_of_bind run
  split at run
  · obtain ⟨proof, proved, run⟩ := ok_of_bind run
    cases run
    obtain ⟨k, power⟩ := generateTrace_rows made
    obtain ⟨t, blowup⟩ := computeParameters_blowup set
    exact made_consistent power blowup (Prod.ext proved rfl)
  · cases run

theorem honest_proof_consistent_sample :
    ∃ result, proveLookup counting counting goldilocks 40 80 16 [[0xc0]] [0x12] [7] = .ok result ∧
      Consistent counting counting goldilocks 40 result := by
  obtain ⟨result, run⟩ := sampleLookup_returns
  exact ⟨result, run, honest_proof_consistent counting counting goldilocks 40 run⟩

/- What the verifier does not read. -/

/-- The proof object with another composition value in its responses. -/
def recompose (v : Int) (result : STARKProofResult) : STARKProofResult :=
  { result with
    proof := { result.proof with
      queryResponses := result.proof.queryResponses.map fun response =>
        { response with compositionValue := v } } }

theorem recompose_checked (v : Int) {result : STARKProofResult}
    (checked : Checked secureHash limit result) :
    Checked secureHash limit (recompose v result) := by
  obtain ⟨field, power, secure, queries, low, challenges, indices, drawn, shaped⟩ := checked
  refine ⟨field, power, secure, queries, low, challenges, indices, drawn, ?_⟩
  rw [recompose, List.forall₂_map_right_iff]
  exact shaped.imp fun _ _ shape => ⟨shape.same, shape.present, shape.eight⟩

theorem drawn_unique {result : STARKProofResult} {challenges challenges' : Challenges}
    {indices indices' : List Nat} (drawn : Drawn secureHash limit result challenges indices)
    (drawn' : Drawn secureHash limit result challenges' indices') :
    challenges = challenges' ∧ indices = indices' := by
  obtain ⟨s, t, first, second⟩ := drawn
  obtain ⟨s', t', first', second'⟩ := drawn'
  cases first.symm.trans first'
  cases second.symm.trans second'
  exact ⟨rfl, rfl⟩

theorem toInt_injective : Function.Injective toInt :=
  fun _ _ same => UInt64.toNat_inj.mp (Int.ofNat.inj same)

/-- At most one composition value fits the first row that is opened. -/
theorem consistent_value {result : STARKProofResult} (checked : Checked secureHash limit result)
    {v v' : Int} (consistent : Consistent secureHash sha256 ops limit (recompose v result))
    (consistent' : Consistent secureHash sha256 ops limit (recompose v' result)) : v = v' := by
  obtain ⟨challenges, indices, drawn, opens, _⟩ := consistent
  obtain ⟨challenges', indices', drawn', opens', _⟩ := consistent'
  obtain ⟨rfl, rfl⟩ := drawn_unique drawn drawn'
  obtain ⟨_, _, _, sampled⟩ := drawn
  have count := (challengeIndices_sampled sampled).enough
  have twenty := checked.queries
  change indices.length = result.proof.params.nQueries.toNat at count
  simp only [recompose, List.forall₂_map_right_iff] at opens opens'
  cases responses : result.proof.queryResponses with
  | nil =>
    rw [responses, List.forall₂_nil_right_iff] at opens
    rw [opens, List.length_nil] at count
    omega
  | cons response rest =>
    rw [responses] at opens opens'
    cases opens with
    | cons first _ =>
      cases opens' with
      | cons first' _ =>
        obtain ⟨values, _, _, row, _, _, value⟩ := first
        obtain ⟨values', _, _, row', _, _, value'⟩ := first'
        have same : values = values' :=
          List.map_injective_iff.mpr toInt_injective (row.symm.trans row')
        exact value.trans (same ▸ value'.symm)

/-- What the prover puts together from a trace is consistent, but no condition on what the
    verifier reads is enough: of whatever it accepts it also accepts an inconsistent copy. -/
theorem lookup_consistent_made (secureHash sha256 : Digest) (ops : FieldOps) (limit : Nat) :
    (∀ (params : SecurityParameters) (trace : ExecutionTrace) (k t : Nat),
      trace.traceTable.length = 2 ^ k → params.blowupFactor = 2 ^ t →
      ∀ proof s, starkProof secureHash sha256 ops limit params trace (start secureHash none) =
          (.ok proof, s) →
        verifyLookup secureHash limit ⟨proof, trace.publicInputs⟩ = .ok true →
          Consistent secureHash sha256 ops limit ⟨proof, trace.publicInputs⟩) ∧
    ∀ result, verifyLookup secureHash limit result = .ok true →
      ∃ v : Int, 0 ≤ v ∧ v < FIELD_PRIME_INT ∧
        verifyLookup secureHash limit (recompose v result) = .ok true ∧
        ¬ Consistent secureHash sha256 ops limit (recompose v result) := by
  constructor
  · intro params trace k t power blowup proof s proved _
    exact made_consistent power blowup proved
  · intro result accepted
    have checked := (verifyLookup_iff secureHash limit result).mp accepted
    have copied (v : Int) : verifyLookup secureHash limit (recompose v result) = .ok true :=
      (verifyLookup_iff _ _ _).mpr (recompose_checked v checked)
    by_cases zero : Consistent secureHash sha256 ops limit (recompose 0 result)
    · refine ⟨1, by decide, by decide, copied 1, fun one => ?_⟩
      cases consistent_value checked zero one
    · exact ⟨0, by decide, by decide, copied 0, zero⟩

def evenTrace : ExecutionTrace where
  traceTable := List.replicate 4 ⟨1, 2, 3, 4, 5, 6, 7, 8⟩
  nSteps := 4
  publicInputs := ⟨[1], [2], [3]⟩

def evenParams : SecurityParameters := ⟨80, 4, 8, 20, FIELD_PRIME_INT⟩

theorem lookup_consistent_made_sample :
    (∃ proof, verifyLookup counting 40 ⟨proof, evenTrace.publicInputs⟩ = .ok true ∧
      Consistent counting counting goldilocks 40 ⟨proof, evenTrace.publicInputs⟩) ∧
    ∃ v : Int, verifyLookup counting 40 (recompose v zeroRows) = .ok true ∧
      ¬ Consistent counting counting goldilocks 40 (recompose v zeroRows) := by
  obtain ⟨made, copied⟩ := lookup_consistent_made counting counting goldilocks 40
  constructor
  · have returns : ((starkProof counting counting goldilocks 40 evenParams evenTrace
        (start counting none)).1 >>= fun proof =>
          verifyLookup counting 40 ⟨proof, evenTrace.publicInputs⟩) = .ok true := by
      decide +kernel
    cases run : starkProof counting counting goldilocks 40 evenParams evenTrace
        (start counting none) with
    | mk outcome s =>
      rw [run] at returns
      obtain ⟨proof, same, accepted⟩ := ok_of_bind returns
      cases same
      exact ⟨proof, accepted, made evenParams evenTrace 2 3 rfl rfl proof s run accepted⟩
  · obtain ⟨v, _, _, accepted, other⟩ := copied zeroRows (by decide +kernel)
    exact ⟨v, accepted, other⟩

end StarkConsistency
