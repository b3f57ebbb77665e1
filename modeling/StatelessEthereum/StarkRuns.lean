import StatelessEthereum.StarkMerkle
import StatelessEthereum.LowDegreeExtension
import StatelessEthereum.CommitmentRows

/- Where a run of the STARK prover can end. On traces of a usable length none of its
   steps raises; what can keep it from its result is a hash that never draws enough
   different query indices. -/
namespace StarkRuns
open BigEndian PythonError StateEffect FiatShamir LowDegree FriProtocol MptCircuit StarkMerkle
open NumberTransform LowDegreeExtension HashPaths CommitmentPaths CommitmentRows

def Undecided (e : PyError) : Prop := e = .diverges

/- The transcript. -/
section Transcript
variable {secureHash : Digest} {label : Bytes} {s : FiatShamirTranscript}

theorem append_settles {data : Bytes} (short : data.length < 2 ^ 32) :
    Settles Undecided (append secureHash label data) s fun _ t =>
      t.challengeCount = s.challengeCount :=
  settles_bind_lift (if_pos short) (settles_ok rfl rfl)

theorem nextLabel_settles (low : s.challengeCount < 2 ^ 32) :
    Settles Undecided (nextLabel label) s fun _ t => t.challengeCount = s.challengeCount + 1 := by
  have packed : packI s.challengeCount = .ok (toBytes 4 s.challengeCount).reverse := if_pos low
  refine settles_ok (t := { s with challengeCount := s.challengeCount + 1 })
    (a := label ++ (toBytes 4 s.challengeCount).reverse) ?_ rfl
  simp only [nextLabel, bind_run, reads_run, packed, modify_run, pure_run]

theorem challenge_settles (low : s.challengeCount < 2 ^ 32) :
    Settles Undecided (challenge secureHash label) s fun _ t =>
      t.challengeCount = s.challengeCount + 1 :=
  settles_bind (nextLabel_settles low) fun _ _ counted => settles_ok rfl counted

theorem gather_returns (secureHash : Digest) (nBytes : Nat) (source : Bytes) (turns : Nat)
    {counter : Nat} (result : Bytes) (few : counter + turns ≤ 2 ^ 32) :
    ∃ bytes, gather secureHash nBytes source turns counter result = .ok bytes := by
  induction turns generalizing counter result with
  | zero => exact ⟨result, rfl⟩
  | succ turns ih =>
    unfold gather
    split
    · have packed : packI counter = .ok (toBytes 4 counter).reverse := if_pos (by omega)
      rw [packed]
      exact ih _ (by omega)
    · exact ⟨result, rfl⟩

theorem challengeBytes_settles {nBytes : Nat} (few : nBytes ≤ 2 ^ 32)
    (low : s.challengeCount < 2 ^ 32) :
    Settles Undecided (challengeBytes secureHash label nBytes) s fun _ t =>
      t.challengeCount = s.challengeCount + 1 := by
  refine settles_bind (nextLabel_settles low) ?_
  intro challengeLabel t counted
  obtain ⟨bytes, gathered⟩ := gather_returns secureHash nBytes
    (t.state ++ t.domainSeparator ++ challengeLabel) nBytes [] (by omega : 0 + nBytes ≤ 2 ^ 32)
  refine settles_ok (t := absorb secureHash (bytes.take nBytes) t) (a := bytes.take nBytes) ?_ counted
  simp only [bind_run, reads_run, gathered, modify_run, pure_run]

/-- The draws end with enough indices or are not over yet. -/
theorem sampleIndices_settles {count domainSize turns attempt : Nat} {indices : List Nat}
    (low : s.challengeCount + turns ≤ 2 ^ 32) :
    Settles Undecided (sampleIndices secureHash count domainSize turns attempt indices) s
      fun _ _ => True := by
  induction turns generalizing attempt indices s with
  | zero =>
    unfold sampleIndices
    split
    · exact settles_raise (show Undecided .diverges from rfl) _
    · exact settles_pure trivial
  | succ turns ih =>
    unfold sampleIndices
    split
    · refine settles_bind (challengeBytes_settles (by decide) (by omega)) ?_
      intro randBytes t counted
      exact ih (by omega)
    · exact settles_pure trivial

theorem challengeIndices_settles {limit : Nat} {count domainSize : Int} (room : count ≤ domainSize)
    (low : s.challengeCount + limit ≤ 2 ^ 32) :
    Settles Undecided (challengeIndices secureHash limit count domainSize) s
      fun indices _ => Sampled count.toNat domainSize.toNat indices := by
  have drawn : Settles Undecided (challengeIndices secureHash limit count domainSize) s
      fun _ _ => True := by
    unfold challengeIndices
    rw [if_neg (not_lt.mpr room)]
    exact sampleIndices_settles low
  constructor
  · intro indices t run
    exact challengeIndices_sampled run
  · exact drawn.2

end Transcript

/- The folding. -/
section Folding
variable {secureHash sha256 : Digest} {ops : FieldOps} {s : FiatShamirTranscript}

theorem node_size {leaf : Nat → Bytes} (leaves : ∀ i, (leaf i).length = 32) (n h i : Nat) :
    (node (joinHash sha256.hash) leaf n h i).length = 32 := by
  induction h generalizing i with
  | zero => exact leaves i
  | succ h ih =>
    unfold node
    split
    · exact sha256.size _
    · exact ih _

theorem merkleRoot_returns (sha256 : Digest) {leaves : List UInt64} {k : Nat} (power : leaves.length = 2 ^ k) :
    ∃ root, merkleRoot sha256 leaves = .ok root ∧ root.length = 32 := by
  have built : newTree sha256 leaves = .ok (treeOf sha256 leaves k) := newTree_levels power
  unfold newTree at built
  obtain ⟨layers, made, built⟩ := ok_of_bind built
  obtain ⟨root, top, built⟩ := ok_of_bind built
  have named := congrArg MerkleTree.root (Except.ok.inj built)
  refine ⟨root, ?_, ?_⟩
  · simp only [merkleRoot, made, top, bind, Except.bind]
  · have same : root = (treeOf sha256 leaves k).root := named
    rw [same]
    exact node_size (fun _ => sha256.size _) _ _ _

theorem foldLayers_settles {turns k : Nat} {poly : List UInt64} (power : poly.length = 2 ^ k)
    (enough : poly.length ≤ turns) (low : s.challengeCount + k ≤ 2 ^ 32) :
    Settles Undecided (foldLayers secureHash sha256 ops turns poly) s fun proof t =>
      proof.finalPolynomial.length ≤ FINAL_DEGREE_BOUND ∧
        t.challengeCount ≤ s.challengeCount + k := by
  induction turns generalizing poly k s with
  | zero =>
    refine settles_pure ⟨?_, Nat.le_add_right _ _⟩
    exact Nat.le_trans enough (Nat.zero_le _)
  | succ turns ih =>
    unfold foldLayers
    split
    · rename_i long
      have some : k ≠ 0 := by
        rintro rfl
        rw [power] at long
        exact absurd long (by decide)
      obtain ⟨k, rfl⟩ := Nat.exists_eq_succ_of_ne_zero some
      obtain ⟨root, committed, size⟩ := merkleRoot_returns sha256 power
      refine settles_bind_lift committed ?_
      refine settles_bind (append_settles (by rw [size]; decide)) ?_
      intro _ t kept
      refine settles_bind (challenge_settles (by omega)) ?_
      intro alpha u counted
      have halved : (foldPolynomial ops poly alpha).length = 2 ^ k := by
        rw [foldPolynomial_length, power, Nat.pow_succ, Nat.mul_div_cancel _ Nat.two_pos]
      have fewer : (foldPolynomial ops poly alpha).length ≤ turns := by
        rw [foldPolynomial_length]
        unfold FINAL_DEGREE_BOUND at long
        omega
      refine settles_bind (ih halved fewer (by omega)) ?_
      intro proof v known
      exact settles_pure ⟨known.1, by omega⟩
    · rename_i short
      exact settles_pure ⟨Nat.le_of_not_lt short, Nat.le_add_right _ _⟩

theorem tobytes_length (poly : List UInt64) : (tobytes poly).length = 8 * poly.length := by
  induction poly with
  | nil => rfl
  | cons x poly ih =>
    have word : (fieldBytes x).reverse.length = 8 := by
      rw [List.length_reverse, fieldBytes, toBytes_length]
    unfold tobytes at ih ⊢
    rw [List.flatMap_cons, List.length_append, ih, word, List.length_cons]
    omega

theorem prove_settles {k : Nat} {poly : List UInt64} (power : poly.length = 2 ^ k)
    (low : s.challengeCount + k ≤ 2 ^ 32) :
    Settles Undecided (prove secureHash sha256 ops poly) s fun _ t =>
      t.challengeCount ≤ s.challengeCount + k := by
  refine settles_bind (foldLayers_settles power Nat.le.refl low) ?_
  intro proof t known
  have short : (tobytes proof.finalPolynomial).length < 2 ^ 32 := by
    rw [tobytes_length]
    have few := known.1
    unfold FINAL_DEGREE_BOUND at few
    omega
  refine settles_bind (append_settles short) ?_
  intro _ u kept
  exact settles_pure (by omega)

end Folding

/- The columns. -/
section Columns
variable {k t : Nat}

theorem computeLde_returns {column : List UInt64} (power : column.length = 2 ^ k)
    (few : k + t ≤ 32) :
    ∃ lde, computeLde goldilocks column (2 ^ t) = .ok lde ∧ lde.length = 2 ^ (k + t) := by
  obtain ⟨w, known, _, root⟩ := getOmega_root (show k ≤ 32 by omega)
  obtain ⟨twiddles, made, count, powers⟩ := getTwiddles_powers known
  obtain ⟨u, wide, _⟩ := getOmega_root few
  obtain ⟨twiddlesExtended, madeWide, _⟩ := getTwiddles_powers wide
  have unit : ∀ i < twiddles.length, entries twiddles i ≠ 0 := by
    intro i inside
    rw [powers i (by omega)]
    exact pow_ne_zero i (root.ne_zero (Nat.two_pow_pos k).ne')
  obtain ⟨inverses, inverse, _⟩ := inverted unit
  have small : 2 ^ k < 2 ^ 64 := Nat.pow_lt_pow_right (by decide) (by omega)
  have size : UInt64.ofNat (2 ^ k) ≠ 0 := by
    intro zero
    have same := congrArg UInt64.toNat zero
    rw [UInt64.toNat_ofNat_of_lt' small] at same
    exact absurd same (Nat.two_pow_pos k).ne'
  obtain ⟨nInv, scaled⟩ : ∃ nInv, goldilocks.inv (UInt64.ofNat (2 ^ k)) = .ok nInv :=
    ⟨_, if_neg size⟩
  have exact := (Nat.ne_zero_and_sub_one_eq_zero_iff_isPowerOfTwo.mpr ⟨k, power⟩).2
  rw [power] at exact
  have run : ∃ lde, computeLde goldilocks column (2 ^ t) = .ok lde := by
    unfold computeLde nttInverse
    simp only [exact, ne_eq, not_true_eq_false, if_false, power, made, inverse, scaled,
      ← Nat.pow_add, madeWide, bind, Except.bind]
    exact ⟨_, rfl⟩
  obtain ⟨lde, run⟩ := run
  refine ⟨lde, run, ?_⟩
  rw [computeLde_length ⟨k, power⟩ (Nat.two_pow_pos t) run, power, Nat.pow_add]

theorem extended_table {ops : FieldOps} {trace : ExecutionTrace} {traceLde : List (List UInt64)}
    (power : trace.traceTable.length = 2 ^ k)
    (extended : extendColumns ops trace (2 ^ t) = .ok traceLde) : Table traceLde (2 ^ (k + t)) := by
  have each := mapM_inv extended
  refine ⟨?_, ?_, Nat.two_pow_pos _⟩
  · rintro rfl
    have eight := each.length_eq
    rw [List.length_range] at eight
    cases eight
  · intro col member
    obtain ⟨i, inside, rfl⟩ := List.getElem_of_mem member
    obtain ⟨register, _, run⟩ := each_at each.flip (List.getElem?_eq_getElem inside)
    have size : (trace.traceTable.map fun row => row.cells.getD register 0).length = 2 ^ k := by
      rw [List.length_map, power]
    rw [computeLde_length ⟨k, size⟩ (Nat.two_pow_pos t) run, size, Nat.pow_add]

theorem extendColumns_table {trace : ExecutionTrace} (power : trace.traceTable.length = 2 ^ k)
    (few : k + t ≤ 32) : ∃ traceLde, extendColumns goldilocks trace (2 ^ t) = .ok traceLde ∧
      Table traceLde (2 ^ (k + t)) := by
  obtain ⟨traceLde, run, _⟩ := mapM_ok (l := List.range N_REGISTERS)
    (f := fun col => computeLde goldilocks (trace.traceTable.map fun row => row.cells.getD col 0)
      (2 ^ t))
    (R := fun _ lde => lde.length = 2 ^ (k + t)) (by
      intro col _
      exact computeLde_returns (by rw [List.length_map, power]) few)
  exact ⟨traceLde, run, extended_table power run⟩

theorem addColumns_length {ops : FieldOps} (alpha : UInt64) {columns : List (List UInt64)} {n : Nat}
    (even : ∀ col ∈ columns, col.length = n) (alphaPower : UInt64) {composition : List UInt64}
    (size : composition.length = n) :
    (addColumns ops alpha columns alphaPower composition).length = n := by
  induction columns generalizing alphaPower composition with
  | nil => exact size
  | cons col rest ih =>
    unfold addColumns
    refine ih (fun c member => even c (List.mem_cons_of_mem _ member)) _ ?_
    rw [List.length_zipWith, size, even col List.mem_cons_self, Nat.min_self]

theorem composition_length (ops : FieldOps) {columns : List (List UInt64)} {n : Nat}
    (table : Table columns n) (alpha : UInt64) :
    (computeCompositionPolynomial ops columns alpha).length = n := by
  obtain ⟨col, rest, rfl⟩ := List.exists_cons_of_ne_nil table.wide
  have head : ((col :: rest).headD []).length = n := table.rectangular col List.mem_cons_self
  unfold computeCompositionPolynomial
  exact addColumns_length alpha table.rectangular 1 (by rw [List.length_replicate]; exact head)

def answerAt (columns : List (List UInt64)) (tree : List (List Bytes)) (compositionPoly : List UInt64)
    (idx : Nat) : QueryResponse where
  index := idx
  traceValues := (rowOf columns idx).map toInt
  compositionValue := toInt (compositionPoly.getD idx 0)
  authPaths := .given (rowOf columns idx) (siblings tree.dropLast idx)

theorem respond_answers {columns : List (List UInt64)} {n : Nat} (table : Table columns n)
    (tree : List (List Bytes)) {compositionPoly : List UInt64} (size : compositionPoly.length = n)
    {idx : Nat} (inside : idx < n) : respond columns tree compositionPoly idx =
      .ok (answerAt columns tree compositionPoly idx) := by
  have low : idx < compositionPoly.length := by omega
  have value : itemAt idx compositionPoly = .ok (compositionPoly.getD idx 0) := by
    rw [itemAt, List.getElem?_eq_getElem low, List.getD_eq_getElem _ _ low]
  simp only [respond, getQueryResponse, rowAt_rowOf table inside, value, bind, Except.bind]
  rfl

end Columns

/- Whole proofs. -/
section Proofs
variable {secureHash sha256 : Digest} {limit k t : Nat}

structure Writable (publicInputs : PublicInputs) : Prop where
  key : publicInputs.key.length < 2 ^ 32
  value : publicInputs.value.length < 2 ^ 32
  root : publicInputs.rootHash.length < 2 ^ 32

theorem appendPublic_settles {publicInputs : PublicInputs} (writable : Writable publicInputs)
    {s : FiatShamirTranscript} : Settles Undecided (appendPublic secureHash publicInputs) s
      fun _ t => t.challengeCount = s.challengeCount := by
  refine settles_bind (append_settles writable.key) ?_
  intro _ t kept
  refine settles_bind (append_settles writable.value) ?_
  intro _ u kept'
  refine settles_mono (append_settles writable.root) ?_
  intro _ v kept''
  omega

theorem committed_root (sha256 : Digest) {columns : List (List UInt64)} {n : Nat} (table : Table columns n) :
    ∃ tree root, commitmentTree sha256 columns = .ok tree ∧ topOf tree = .ok root ∧
      root.length = 32 := by
  obtain ⟨top, rises, built⟩ := commitmentTree_levels sha256 table
  exact ⟨_, _, built, topOf_levels rises, node_size (fun _ => sha256.size _) _ _ _⟩

/-- The prover ends with a proof or still draws indices. -/
theorem starkProof_settles {params : SecurityParameters} {trace : ExecutionTrace}
    {s : FiatShamirTranscript} (writable : Writable trace.publicInputs)
    (power : trace.traceTable.length = 2 ^ k) (blowup : params.blowupFactor = 2 ^ t)
    (few : k + t ≤ 32) (room : params.nQueries ≤ (2 ^ (k + t) : Nat))
    (low : s.challengeCount + 1 + (k + t) + limit ≤ 2 ^ 32) :
    Settles Undecided (starkProof secureHash sha256 goldilocks limit params trace) s
      fun _ _ => True := by
  obtain ⟨traceLde, extended, table⟩ := extendColumns_table power few
  obtain ⟨tree, root, built, top, size⟩ := committed_root sha256 table
  rw [← blowup] at extended
  refine settles_bind (appendPublic_settles writable) ?_
  intro _ u begun
  refine settles_bind_lift extended (settles_bind_lift built (settles_bind_lift top ?_))
  refine settles_bind (append_settles (by rw [size]; decide)) ?_
  intro _ v kept
  refine settles_bind (challenge_settles (by omega)) ?_
  intro alpha w counted
  have long := composition_length goldilocks table alpha
  refine settles_bind (prove_settles long (by omega)) ?_
  intro friProof x folded
  refine settles_bind (challengeIndices_settles (by rw [long]; exact room) (by omega)) ?_
  intro queryIndices y sampled
  have answers : queryIndices.mapM (respond traceLde tree
      (computeCompositionPolynomial goldilocks traceLde alpha)) =
        .ok (queryIndices.map (answerAt traceLde tree
          (computeCompositionPolynomial goldilocks traceLde alpha))) := by
    apply mapM_of_each
    rw [List.forall₂_map_right_iff, List.forall₂_same]
    intro idx member
    have inside := sampled.inside idx member
    rw [long, Int.toNat_natCast] at inside
    exact respond_answers table tree long inside
  exact settles_bind_lift answers (settles_pure trivial)

/-- What the constructor picks for a trace of at least sixteen rows. -/
theorem computeParameters_usable (securityBits : Int) (some : 4 ≤ k) :
    ∃ params t, computeParameters securityBits (2 ^ k) = .ok params ∧
      params.blowupFactor = 2 ^ t ∧ t ≤ 3 ∧ params.nQueries ≤ (2 ^ (k + t) : Nat) := by
  have rows : 2 ^ 4 ≤ 2 ^ k := Nat.pow_le_pow_right (by decide) some
  have positive : 2 ^ k ≠ 0 := (Nat.two_pow_pos k).ne'
  unfold computeParameters
  simp only [positive, if_false]
  split
  · refine ⟨_, 3, rfl, rfl, Nat.le_refl 3, ?_⟩
    rw [Nat.pow_add]
    change (80 : Int) ≤ _
    omega
  · split
    · refine ⟨_, 3, rfl, rfl, Nat.le_refl 3, ?_⟩
      rw [Nat.pow_add]
      change (60 : Int) ≤ _
      omega
    · refine ⟨_, 2, rfl, rfl, by decide, ?_⟩
      rw [Nat.pow_add]
      change (40 : Int) ≤ _
      omega

theorem generateTrace_public {proofNodes : List Bytes} {key value : Bytes} {nSteps : Nat}
    {trace : ExecutionTrace} (run : generateTrace sha256 proofNodes key value nSteps = .ok trace) :
    trace.publicInputs = ⟨proofNodes.headD [], key, value⟩ := by
  unfold generateTrace at run
  simp only at run
  generalize (if nSteps &&& (nSteps - 1) ≠ 0 then nSteps.nextPowerOfTwo else nSteps) = rows at run
  split at run
  · cases run
  · cases run
    rfl

/-- A lookup whose nodes fit into the trace: the prover returns a proof of it, which the
    verifier accepts, or it still draws indices. -/
theorem lookup_ends {proofNodes : List Bytes} {key value : Bytes} {securityBits : Int}
    (some : 4 ≤ k) (few : k ≤ 29) (room : proofNodes.length + 1 < 2 ^ k)
    (writable : Writable ⟨proofNodes.headD [], key, value⟩) (draws : limit ≤ 2 ^ 31)
    (safe : 80 ≤ securityBits) :
    (∃ result, proveLookup secureHash sha256 goldilocks limit securityBits (2 ^ k) proofNodes key
        value = .ok result ∧ result.publicInputs = ⟨proofNodes.headD [], key, value⟩ ∧
      verifyLookup secureHash limit result = .ok true) ∨
    proveLookup secureHash sha256 goldilocks limit securityBits (2 ^ k) proofNodes key value =
      .error .diverges := by
  obtain ⟨params, t, set, blowup, narrow, queries⟩ := computeParameters_usable securityBits some
  obtain ⟨trace, made, steps, size, valid⟩ := generateTrace_valid sha256 key value ⟨k, rfl⟩ room
  have inputs := generateTrace_public made
  have exact := (Nat.ne_zero_and_sub_one_eq_zero_iff_isPowerOfTwo.mpr
    (show (2 ^ k).isPowerOfTwo from ⟨k, rfl⟩)).2
  have checked : validateTrace trace = .ok true := by
    unfold validateTrace
    rw [steps, if_neg (not_not.mpr exact), valid]
  rw [← inputs] at writable
  have settled := @starkProof_settles secureHash sha256 limit k t params trace
    (start secureHash none) writable size blowup (by omega) queries (by
      change 0 + 1 + (k + t) + limit ≤ 2 ^ 32
      omega)
  unfold proveLookup
  simp only [set, made, checked, if_true, bind, Except.bind]
  rcases settles_cases settled with ⟨proof, u, proved, _⟩ | ⟨e, u, failed, rfl⟩
  · left
    refine ⟨⟨proof, trace.publicInputs⟩, by rw [proved], inputs, ?_⟩
    obtain ⟨_, replayed, same, rfl⟩ := starkProof_replays params trace (start secureHash none) proof
      u proved
    subst same
    unfold verifyLookup
    simp only [computeParameters_accepted ⟨k, rfl⟩ safe set, if_true, replayed]
  · right
    rw [failed]

end Proofs

end StarkRuns
