import StatelessEthereum.KzgScheme

/- The prover of the Verkle tree (prover/verkle_proof.py). -/
namespace VerkleProof
open PythonError BigEndian PutLog KzgSetup KzgScheme CommitmentScheme MultiCombs HashScheme
open VerkleTrees hiding insert get
variable {Point G1 G2 FQ12 : Type} (backend : Backend Point G1 G2 FQ12) (setup : SetupObject G1 G2)

/-- One opening: its quotient, scaled by the factor of the level, in the total. -/
def addOpening (rootBytes : Bytes) (path : List Nat) (level : Nat) (childValues : List Int)
    (idx : Nat) (total : List Int) : Except PyError (List Int) := do
  let PoverQ ← generateQuotient setup.toTables childValues idx
  let rFactor ← deriveRFactorHash backend.sha256 rootBytes path level CURVE_ORDER
  if PoverQ.length < total.length then .error .indexError
  else .ok (List.zipWith (fun t q => (t + q * rFactor) % CURVE_ORDER) total PoverQ)

def extensionValues (width : Nat) (stemBytes : Bytes) (child : Option Bytes) : List Int :=
  [1, (ofBytes stemBytes : Int), (childValue child : Int), 0] ++ List.replicate (width - 4) 0

def arrayValues (children : List (Option Bytes)) : List Int :=
  (childValues children).map Int.ofNat

/-- The loop over the levels of one key. The first number counts the turns left;
    the list is what is left of the stem. -/
def openNodes (db : Store Bytes Bytes) (rootBytes : Bytes) (path : List Nat) (suffix : Nat) :
    Nat → Nat → TreeNode Point → List Nat → List Int → Except PyError (List Int)
  | 0, _, _, _, total => .ok total
  | turns + 1, level, node, rest, total =>
    match node.type with
    | .internal =>
      match rest with
      | [] => .error .indexError
      | idx :: rest => do
        let total ← addOpening backend setup rootBytes path level (arrayValues node.children) idx
          total
        let child ← entry node.children idx
        let next ← makeTreeNode (kzgScheme backend setup) db child
        openNodes db rootBytes path suffix turns (level + 1) next rest total
    | .extension => do
      let stemBytes ← bytesOf node.stem
      let total ← addOpening backend setup rootBytes path level
        (extensionValues setup.width stemBytes node.child) 2 total
      let next ← makeTreeNode (kzgScheme backend setup) db node.child
      openNodes db rootBytes path suffix turns (level + 1) next rest total
    | .suffix =>
      addOpening backend setup rootBytes path level (arrayValues node.children) suffix total

/-- The body of the loop over the keys. -/
def openKey (db : Store Bytes Bytes) (rootBytes : Bytes) (root : TreeNode Point)
    (total : List Int) (entry : Bytes × List Point × List Nat) : Except PyError (List Int) := do
  let (key, commitments, path) := entry
  let chunks ← getKeyChunks setup.width key
  match chunks.getLast? with
  | none => .error .indexError
  | some suffix =>
    openNodes backend setup db rootBytes path suffix (commitments.length + 1) 0 root
      chunks.dropLast total

/-- The commitments of every key, and the values of the one polynomial that all
    quotients are added up in. -/
def aggregate (tree : VerkleTree Point) (keys : List Bytes) :
    Except PyError (List (List Point) × List Int) :=
  match rootNode tree with
  | none => .error .attributeError
  | some root => do
    let commitments ← keys.mapM (getProofTree (kzgScheme backend setup) tree)
    let pathsForR ← keys.mapM (keyToPath setup.width)
    match root.commitmentToChildren with
    | none => .error (.typeError "root_commitment must be a 2-tuple (x, y)")
    | some committeeRoot => do
      let rootBytes ← backend.format.generateRootBytes committeeRoot
      let _ ← deriveR backend.sha256 rootBytes pathsForR CURVE_ORDER
      let total ← (keys.zip (commitments.zip pathsForR)).foldlM
        (openKey backend setup tree.disk.db rootBytes root) (List.replicate setup.width 0)
      .ok (commitments, total)

def generateWitness (total : List Int) : Except PyError Point := do
  let sum ← lincomb backend.curve.add backend.curve.Z1 backend.logFloor setup.setup2
    (total.map Int.toNat)
  .ok (backend.curve.normalize sum)

def generateProof (tree : VerkleTree Point) (keys : List Bytes) :
    Except PyError (List (List Point) × Point) := do
  let (commitments, total) ← aggregate backend setup tree keys
  let witness ← generateWitness backend setup total
  .ok (commitments, witness)

end VerkleProof
