import StatelessEthereum.Grouping
import StatelessEthereum.VerkleProof
import StatelessEthereum.VerkleVerification

/- The multiproof of the Verkle tree: its prover (prover/verkle_multiproof.py),
   which opens a node that several keys share under one commitment, and its
   verifier (verifier/verkle_multiproof_verification.py). -/
namespace VerkleMultiproof
open PythonError BigEndian PolyUtils PutLog KzgSetup KzgScheme CommitmentScheme HashScheme Grouping
open VerkleProof (addOpening arrayValues extensionValues generateWitness)
open VerkleTrees hiding insert get
variable {Point G1 G2 FQ12 : Type}

/-- An entry of `openings`. -/
structure NodeOpening where
  idx : Nat
  keyIdx : Nat
  depth : Nat

/-- `nodes_map`: the `child_values` and the `openings` of every commitment. -/
abbrev NodesMap (Point : Type) := List (Group Point (List Int) NodeOpening)

/-- An entry of the traversal of a key: `(comm_tuple, idx, node_type, child_val)`. -/
structure Step (Point : Type) where
  commitment : Point
  idx : Int
  nodeType : NodeType
  childVal : Int

/-- `proof_dict`. A traversal is looked up by the number of its key. -/
structure ProofDict (Point : Type) where
  commitments : List Point
  keyTraversals : Nat → Option (List (Step Point))

section Prover
variable [DecidableEq Point] (backend : Backend Point G1 G2 FQ12) (setup : SetupObject G1 G2)

/-- The loop of both passes: what a pass does with a node, first before its
    index is known and then with it. The numbers are the turns left and the
    depth, which also counts extensions. -/
def walk {σ : Type} (enter : Point → TreeNode Point → σ → Except PyError σ)
    (opened : Point → TreeNode Point → Nat → Nat → σ → Except PyError σ) (db : Store Bytes Bytes)
    (stem : List Nat) (suffix : Nat) : Nat → Nat → TreeNode Point → σ → Except PyError σ
  | 0, _, _, _ => .error .diverges
  | limit + 1, depth, node, state =>
    match node.commitmentToChildren with
    | none => .error (.typeError "")
    | some commitment => do
      let state ← enter commitment node state
      match node.type with
      | .internal =>
        match stem[depth]? with
        | none => .error .indexError
        | some idx => do
          let state ← opened commitment node idx depth state
          match ← entry node.children idx with
          | none | some [] => .ok state
          | some childRef => do
            let next ← makeTreeNode (kzgScheme backend setup) db (some childRef)
            walk enter opened db stem suffix limit (depth + 1) next state
      | .extension => do
        let state ← opened commitment node 2 depth state
        match node.child with
        | none | some [] => .ok state
        | some childRef => do
          let next ← makeTreeNode (kzgScheme backend setup) db (some childRef)
          walk enter opened db stem suffix limit (depth + 1) next state
      | .suffix => opened commitment node suffix depth state

def walkKey {σ : Type} (enter : Point → TreeNode Point → σ → Except PyError σ)
    (opened : Point → TreeNode Point → Nat → Nat → σ → Except PyError σ) (db : Store Bytes Bytes)
    (root : TreeNode Point) (key : Bytes) (state : σ) : Except PyError σ := do
  let chunks ← getKeyChunks setup.width key
  match chunks.getLast? with
  | none => .error .indexError
  | some suffix =>
    walk backend setup enter opened db chunks.dropLast suffix (walkLimit db chunks.dropLast) 0 root
      state

/- Pass 1. -/

def nodeValues (node : TreeNode Point) : Except PyError (List Int) :=
  match node.type with
  | .internal | .suffix => .ok (arrayValues node.children)
  | .extension => do
    let stemBytes ← bytesOf node.stem
    .ok (extensionValues setup.width stemBytes node.child)

def enterNode (commitment : Point) (node : TreeNode Point) (nodesMap : NodesMap Point) :
    Except PyError (NodesMap Point) :=
  if commitment ∈ names nodesMap then .ok nodesMap
  else do
    let childValues ← nodeValues setup node
    .ok (enroll commitment childValues nodesMap)

def collectKey (db : Store Bytes Bytes) (root : TreeNode Point) (nodesMap : NodesMap Point)
    (key : Bytes × Nat) : Except PyError (NodesMap Point) :=
  walkKey backend setup (enterNode setup)
    (fun commitment _ idx depth nodesMap => .ok (attach commitment ⟨idx, key.2, depth⟩ nodesMap))
    db root key.1 nodesMap

/-- One entry of `openings`. -/
def openAt (rootBytes : Bytes) (pathsForR : List (List Nat)) (childValues : List Int)
    (total : List Int) (o : NodeOpening) : Except PyError (List Int) :=
  match pathsForR[o.keyIdx]? with
  | none => .error .indexError
  | some path => addOpening backend setup rootBytes path o.depth childValues o.idx total

def openGroup (rootCommitment : Point) (rootBytes : Bytes) (pathsForR : List (List Nat))
    (state : List Point × List Int) (node : Group Point (List Int) NodeOpening) :
    Except PyError (List Point × List Int) := do
  let commitments := if node.name = rootCommitment then state.1 else state.1 ++ [node.name]
  let total ← node.items.foldlM (openAt backend setup rootBytes pathsForR node.data) state.2
  .ok (commitments, total)

def aggregate (tree : VerkleTree Point) (keys : List Bytes) :
    Except PyError (List Point × List Int) :=
  match rootNode tree with
  | none => .error .attributeError
  | some root => do
    let pathsForR ← keys.mapM (keyToPath setup.width)
    match root.commitmentToChildren with
    | none => .error (.typeError "root_commitment must be a 2-tuple (x, y)")
    | some rootCommitment => do
      let rootBytes ← backend.format.generateRootBytes rootCommitment
      let _ ← deriveR backend.sha256 rootBytes pathsForR CURVE_ORDER
      let nodesMap ← keys.zipIdx.foldlM (collectKey backend setup tree.disk.db root) []
      nodesMap.foldlM (openGroup backend setup rootCommitment rootBytes pathsForR)
        ([], List.replicate setup.width 0)

/- Pass 2. -/

def childAt (node : TreeNode Point) (idx : Nat) : Except PyError (Option Bytes) :=
  match node.type with
  | .extension => .ok node.child
  | .internal | .suffix => entry node.children idx

def recordStep (commitment : Point) (node : TreeNode Point) (idx : Nat)
    (traversal : List (Step Point)) : Except PyError (List (Step Point)) := do
  let child ← childAt node idx
  .ok (traversal ++ [⟨commitment, idx, node.type, childValue child⟩])

def traverseKey (db : Store Bytes Bytes) (root : TreeNode Point) (key : Bytes) :
    Except PyError (List (Step Point)) :=
  walkKey backend setup (fun _ _ traversal => .ok traversal)
    (fun commitment node idx _ traversal => recordStep commitment node idx traversal) db root key []

def generateProof (tree : VerkleTree Point) (keys : List Bytes) :
    Except PyError (ProofDict Point × Point) := do
  let (commitments, total) ← aggregate backend setup tree keys
  let witness ← generateWitness backend setup total
  match rootNode tree with
  | none => .error .attributeError
  | some root => do
    let traversals ← keys.mapM (traverseKey backend setup tree.disk.db root)
    .ok (⟨commitments, fun keyIdx => traversals[keyIdx]?⟩, witness)

end Prover

/- The verifier. -/
section Verifier
variable (backend : Backend Point G1 G2 FQ12) (setup : SetupObject G1 G2)

/-- `Z_comm` for an index that a proof gives. -/
def cofactorPoint (idx : Int) : Except PyError G2 :=
  match listIndex setup.setup3 idx, (listIndex setup.lagrangePolys idx).bind List.getLast? with
  | some pt, some last => .ok (backend.curve.multiply₂ pt (inv setup.modulus last).toNat)
  | _, _ => .error .indexError

/-- What a step is opened to: a suffix to the claimed value, all others to what
    the proof gives. -/
def Step.leaf (value : Nat) (step : Step Point) : Int :=
  if step.nodeType = .suffix then value else step.childVal

def checkStep (root : Point) (path : List Nat) (value : Nat) (pairingCheck : FQ12)
    (entry : Step Point × Nat) : Except PyError FQ12 := do
  let (step, depth) := entry
  let rootBytes ← backend.format.generateRootBytes root
  let rFactor ← deriveRFactorHash backend.sha256 rootBytes path depth CURVE_ORDER
  let negLeaf := backend.curve.multiply backend.curve.generator
    (((CURVE_ORDER : Int) - step.leaf value) % CURVE_ORDER).toNat
  let commMinusLeaf := backend.curve.add (backend.curve.lift step.commitment) negLeaf
  let zComm ← cofactorPoint backend setup step.idx
  .ok (backend.curve.mul pairingCheck
    (backend.curve.pairing zComm (backend.curve.multiply commMinusLeaf rFactor)))

def checkKey (root : Point) (keyTraversals : Nat → Option (List (Step Point))) (pairingCheck : FQ12)
    (entry : (Nat × List Nat) × Nat) : Except PyError FQ12 :=
  match keyTraversals entry.2 with
  | none => .error (.keyError (toString entry.2))
  | some traversal => traversal.zipIdx.foldlM (checkStep backend setup root entry.1.2 entry.1.1) pairingCheck

def verifyProof [DecidableEq FQ12] (values keys : List Bytes) (root : Point)
    (proof : ProofDict Point × Point) : Except PyError Bool := do
  let (proofDict, witness) := proof
  let pathsForR ← keys.mapM (keyToPath setup.width)
  let pairingCheck ← ((values.map ofBytes).zip pathsForR).zipIdx.foldlM
    (checkKey backend setup root proofDict.keyTraversals) backend.curve.one
  let pairingCheck ← VerkleVerification.checkWitness backend setup witness pairingCheck
  .ok (decide (backend.curve.finalExponentiate pairingCheck = backend.curve.one))

end Verifier

end VerkleMultiproof
