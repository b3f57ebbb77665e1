import StatelessEthereum.LowDegree
import StatelessEthereum.LockStep

/- Merkle commitments to field elements (zkSTARK/commitment.py) and the FRI
   protocol on top of them (zkSTARK/fri.py). -/
namespace FriProtocol
open BigEndian PythonError StateEffect LockStep FiatShamir LowDegree

def fieldBytes (x : UInt64) : Bytes := toBytes 8 x.toNat

section Trees
variable (sha256 : Digest)

def merkleHash (left right : Bytes) : Bytes := sha256.hash (left ++ right)

def leafHash (data : Bytes) : Bytes := sha256.hash (ascii "LEAF:" ++ data)

/-- One layer up; `alone` is what becomes of a last node without a sibling. -/
def nextLayer (alone : Bytes → Except PyError Bytes) : List Bytes → Except PyError (List Bytes)
  | [] => .ok []
  | [node] => do
    let parent ← alone node
    .ok [parent]
  | left :: right :: rest => do
    let later ← nextLayer alone rest
    .ok (merkleHash sha256 left right :: later)

/-- The layers from the leaves to the root. Every turn shortens the layer, so
    the number of leaves bounds the turns. -/
def layersUp (alone : Bytes → Except PyError Bytes) :
    Nat → List Bytes → Except PyError (List (List Bytes))
  | 0, current => .ok [current]
  | turns + 1, current =>
    if 1 < current.length then do
      let next ← nextLayer sha256 alone current
      let above ← layersUp alone turns next
      .ok (current :: above)
    else .ok [current]

def topOf (layers : List (List Bytes)) : Except PyError Bytes :=
  match layers.getLast?.bind List.head? with
  | some root => .ok root
  | none => .error .indexError

/-- The layers of a `MerkleTree`. -/
def merkleTree (leaves : List UInt64) : Except PyError (List (List Bytes)) :=
  let nLeaves := leaves.length
  if nLeaves &&& (nLeaves - 1) ≠ 0 then
    .error (.valueError "Number of leaves must be power of 2")
  else layersUp sha256 (fun _ => .error .indexError) nLeaves
    (leaves.map fun leaf => leafHash sha256 (fieldBytes leaf))

def merkleRoot (leaves : List UInt64) : Except PyError Bytes := do
  let layers ← merkleTree sha256 leaves
  topOf layers

def rowHash (values : List UInt64) : Bytes := sha256.hash (values.flatMap fieldBytes)

/-- The layers of a `CommitmentTree`. -/
def commitmentTree (columns : List (List UInt64)) : Except PyError (List (List Bytes)) :=
  let nRows := (columns.head?.map List.length).getD 0
  if columns.any fun col => col.length ≠ nRows then
    .error (.valueError "All columns must have same length")
  else layersUp sha256 .ok nRows
    ((List.range nRows).map fun row => rowHash sha256 (columns.map fun col => col.getD row 0))

def siblings : List (List Bytes) → Nat → List Bytes
  | [], _ => []
  | layer :: above, currentIdx =>
    match layer[currentIdx ^^^ 1]? with
    | some sibling => sibling :: siblings above (currentIdx >>> 1)
    | none => siblings above (currentIdx >>> 1)

/-- `col[index]` -/
def itemAt (index : Nat) (col : List UInt64) : Except PyError UInt64 :=
  match col[index]? with
  | some value => .ok value
  | none => .error .indexError

def rowAt (columns : List (List UInt64)) (index : Nat) : Except PyError (List UInt64) :=
  columns.mapM (itemAt index)

def getQueryResponse (columns : List (List UInt64)) (tree : List (List Bytes)) (index : Nat) :
    Except PyError (List UInt64 × List Bytes) := do
  let values ← rowAt columns index
  .ok (values, siblings tree.dropLast index)

/-- The loop of `verify_query`. -/
def climb : Nat → Bytes → List Bytes → Bytes
  | _, current, [] => current
  | currentIdx, current, sibling :: path =>
    climb (currentIdx >>> 1)
      (if currentIdx &&& 1 ≠ 0 then merkleHash sha256 sibling current
        else merkleHash sha256 current sibling) path

def verifyQuery (root : Bytes) (index : Nat) (values : List UInt64) (path : List Bytes) : Bool :=
  climb sha256 index (rowHash sha256 values) path == root

end Trees

structure FRIProof where
  layerCommitments : List Bytes
  layerPolynomials : List (List UInt64)
  finalPolynomial : List UInt64
  deriving DecidableEq

def FINAL_DEGREE_BOUND : Nat := 16

/-- `ndarray.tobytes()` of 64-bit words. -/
def tobytes (poly : List UInt64) : Bytes := poly.flatMap fun x => (fieldBytes x).reverse

section Fri
variable (secureHash sha256 : Digest) (ops : FieldOps)

def foldPolynomial (poly : List UInt64) (alpha : UInt64) : List UInt64 :=
  let nHalf := poly.length / 2
  (List.range nHalf).map fun i =>
    ops.add (poly.getD i 0) (ops.mul alpha (poly.getD (i + nHalf) 0))

/-- The folding loop of `prove`. Every turn halves the polynomial, so its length
    bounds the turns. -/
def foldLayers : Nat → List UInt64 → Talk FRIProof
  | 0, currentPoly => pure ⟨[], [], currentPoly⟩
  | turns + 1, currentPoly =>
    if FINAL_DEGREE_BOUND < currentPoly.length then do
      let root ← lift (merkleRoot sha256 currentPoly)
      append secureHash (ascii "fri_layer") root
      let alpha ← challenge secureHash (ascii "fri_alpha")
      let proof ← foldLayers turns (foldPolynomial ops currentPoly alpha)
      pure ⟨root :: proof.layerCommitments, currentPoly :: proof.layerPolynomials,
        proof.finalPolynomial⟩
    else pure ⟨[], [], currentPoly⟩

/-- `FRIProver.prove` -/
def prove (polynomial : List UInt64) : Talk FRIProof := do
  let proof ← foldLayers secureHash sha256 ops polynomial.length polynomial
  append secureHash (ascii "fri_final") (tobytes proof.finalPolynomial)
  pure proof

/-- The loop of `verify` that rebuilds the folding challenges. -/
def rebuildAlphas : List Bytes → Talk (List UInt64)
  | [] => pure []
  | commitment :: rest => do
    append secureHash (ascii "fri_layer") commitment
    let alpha ← challenge secureHash (ascii "fri_alpha")
    let alphas ← rebuildAlphas rest
    pure (alpha :: alphas)

/-- `FRIVerifier.verify`; it reads the challenges and the layer polynomials no
    further. -/
def verify (proof : FRIProof) : Talk Bool := do
  let _ ← rebuildAlphas secureHash proof.layerCommitments
  append secureHash (ascii "fri_final") (tobytes proof.finalPolynomial)
  if FINAL_DEGREE_BOUND < proof.finalPolynomial.length then pure false else pure true

/-- Every layer polynomial is committed to and folds to the next one, the last
    one to the final polynomial. -/
def FoldsTo (final : List UInt64) : List (List UInt64) → List Bytes → List UInt64 → Prop
  | [], [], [] => True
  | poly :: polys, root :: roots, alpha :: alphas =>
    merkleRoot sha256 poly = .ok root ∧ polys.headD final = foldPolynomial ops poly alpha ∧
      FoldsTo final polys roots alphas
  | _, _, _ => False

end Fri

/- The verifier in lock step with the prover. -/
section Replay
variable {secureHash sha256 : Digest} {ops : FieldOps}

theorem foldPolynomial_length (poly : List UInt64) (alpha : UInt64) :
    (foldPolynomial ops poly alpha).length = poly.length / 2 := by
  simp [foldPolynomial]

/-- What is known of a finished folding loop and the challenges rebuilt from it. -/
structure Layered (sha256 : Digest) (ops : FieldOps) (start : List UInt64) (proof : FRIProof)
    (alphas : List UInt64) : Prop where
  starts : proof.layerPolynomials.headD proof.finalPolynomial = start
  folds : FoldsTo sha256 ops proof.finalPolynomial proof.layerPolynomials proof.layerCommitments
    alphas
  short : proof.finalPolynomial.length ≤ FINAL_DEGREE_BOUND

/-- By induction on the layers: both sides absorb the same root and draw the
    same challenge before the next layer. -/
theorem foldLayers_replays {turns : Nat} {poly : List UInt64} (enough : poly.length ≤ turns) :
    Replays (foldLayers secureHash sha256 ops turns poly)
      (fun proof => rebuildAlphas secureHash proof.layerCommitments)
      (Layered sha256 ops poly) := by
  induction turns generalizing poly with
  | zero =>
    have short : poly.length ≤ FINAL_DEGREE_BOUND := Nat.le_trans enough (Nat.zero_le _)
    exact replays_pure rfl ⟨rfl, trivial, short⟩
  | succ turns ih =>
    unfold foldLayers
    split
    · rename_i long
      apply replays_bind_lift
      intro root committed
      have halved (alpha : UInt64) : (foldPolynomial ops poly alpha).length ≤ turns := by
        rw [foldPolynomial_length]
        unfold FINAL_DEGREE_BOUND at long
        omega
      apply replays_bind_same fun proof _ => do
        let alpha ← challenge secureHash (ascii "fri_alpha")
        let alphas ← rebuildAlphas secureHash proof.layerCommitments.tail
        pure (alpha :: alphas)
      intro _
      apply replays_bind_same fun proof alpha => do
        let alphas ← rebuildAlphas secureHash proof.layerCommitments.tail
        pure (alpha :: alphas)
      intro alpha
      apply replays_bind (fun _ alphas => pure (alpha :: alphas)) (ih (halved alpha))
      intro rest alphas known
      have folds : FoldsTo sha256 ops rest.finalPolynomial (poly :: rest.layerPolynomials)
          (root :: rest.layerCommitments) (alpha :: alphas) :=
        ⟨committed, known.starts, known.folds⟩
      exact replays_pure rfl ⟨rfl, rfl, rfl, rfl, folds, known.short⟩
    · rename_i short
      exact replays_pure rfl ⟨rfl, trivial, Nat.le_of_not_lt short⟩

/-- After `verify` the transcript is the one that `prove` has left. -/
theorem prove_replays (poly : List UInt64) :
    Replays (prove secureHash sha256 ops poly) (verify secureHash) fun _ accepted =>
      accepted = true := by
  unfold prove
  apply replays_bind (fun proof _ => do
    append secureHash (ascii "fri_final") (tobytes proof.finalPolynomial)
    if FINAL_DEGREE_BOUND < proof.finalPolynomial.length then pure false else pure true)
    (foldLayers_replays Nat.le.refl)
  intro proof alphas known
  apply replays_bind_same fun proof _ =>
    if FINAL_DEGREE_BOUND < proof.finalPolynomial.length then pure false else pure true
  intro _
  have short : ¬ FINAL_DEGREE_BOUND < proof.finalPolynomial.length := Nat.not_lt.mpr known.short
  exact replays_pure (if_neg short) ⟨rfl, rfl, rfl⟩

end Replay

end FriProtocol
