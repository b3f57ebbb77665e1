import StatelessEthereum.KzgScheme

/- The verifier of the Verkle tree (verifier/verkle_verification.py). -/
namespace VerkleVerification
open PythonError BigEndian PolyUtils KzgSetup KzgScheme HashScheme
open VerkleTrees (keyChunks)
variable {Point G1 G2 FQ12 : Type} (backend : Backend Point G1 G2 FQ12) (setup : SetupObject G1 G2)

/-- `_get_key_chunks` of the verifier, which takes any width. -/
def getKeyChunks (keyBytes : Bytes) (width : Nat) : Except PyError (List Nat) :=
  if width = 0 then .error (.valueError "")
  else if width.log2 = 0 then .error .zeroDivisionError
  else .ok (keyChunks width keyBytes)

/-- `b.multiply` halves its scalar down to zero, so a negative one never ends. -/
def multiply (pt : G1) (n : Int) : Except PyError G1 :=
  if n < 0 then .error .recursionError else .ok (backend.curve.multiply pt n.toNat)

/-- `Z_comm`: a Lagrange polynomial in G2, scaled to be monic. -/
def cofactorPoint (idx : Nat) : Except PyError G2 :=
  match setup.setup3[idx]?, (setup.lagrangePolys[idx]?).bind List.getLast? with
  | some pt, some last =>
    .ok (backend.curve.multiply₂ pt (inv setup.modulus last).toNat)
  | _, _ => .error .indexError

def checkLevel (rootBytes : Bytes) (path : List Nat) (level idx : Nat) (comm : Point) (leaf : Nat)
    (pairingCheck : FQ12) : Except PyError FQ12 := do
  let rFactor ← deriveRFactorHash backend.sha256 rootBytes path level CURVE_ORDER
  let value ← multiply backend backend.curve.generator ((setup.modulus : Int) - leaf)
  let commMinusLeafTimesR ← multiply backend (backend.curve.add (backend.curve.lift comm) value)
    rFactor
  let zComm ← cofactorPoint backend setup idx
  .ok (backend.curve.mul pairingCheck (backend.curve.pairing zComm commMinusLeafTimesR))

/-- The loop over the levels of one key, from one commitment and those that are
    left: the last level is the suffix, the one before it the extension. -/
def checkLevels (rootBytes : Bytes) (path stem : List Nat) (suffix v : Nat) :
    Nat → Point → List Point → FQ12 → Except PyError FQ12
  | level, comm, [], pairingCheck =>
    checkLevel backend setup rootBytes path level suffix comm v pairingCheck
  | level, comm, next :: rest, pairingCheck => do
    let idx ← if rest = [] then .ok 2 else match stem[level]? with
      | some idx => .ok idx
      | none => .error .indexError
    let pairingCheck ← checkLevel backend setup rootBytes path level idx comm
      (backend.format.hashPointToField next setup.modulus) pairingCheck
    checkLevels rootBytes path stem suffix v (level + 1) next rest pairingCheck

def checkKey (rootBytes : Bytes) (root : Point) (pairingCheck : FQ12)
    (entry : List Point × Bytes × Nat × List Nat) : Except PyError FQ12 := do
  let (c, key, v, path) := entry
  let chunks ← getKeyChunks key setup.width
  match chunks.getLast? with
  | none => .error .indexError
  | some suffix =>
    checkLevels backend setup rootBytes path chunks.dropLast suffix v 0 root c pairingCheck

def checkWitness (witness : Point) (pairingCheck : FQ12) : Except PyError FQ12 :=
  match setup.setup1[setup.width]?, setup.setup1[0]? with
  | some top, some bottom =>
    let globalZComm := backend.curve.add₂ top (backend.curve.neg₂ bottom)
    .ok (backend.curve.mul pairingCheck
      (backend.curve.pairing (backend.curve.neg₂ globalZComm) (backend.curve.lift witness)))
  | _, _ => .error .indexError

def verifyProof [DecidableEq FQ12] (values keys : List Bytes) (root : Point)
    (proof : List (List Point) × Point) : Except PyError Bool := do
  let pathsForR ← keys.mapM (keyToPath setup.width)
  let rootBytes ← backend.format.generateRootBytes root
  let _ ← deriveR backend.sha256 rootBytes pathsForR CURVE_ORDER
  let (commitments, witness) := proof
  let pairingCheck ← (commitments.zip (keys.zip ((values.map ofBytes).zip pathsForR))).foldlM
    (checkKey backend setup rootBytes root) backend.curve.one
  let pairingCheck ← checkWitness backend setup witness pairingCheck
  let o := backend.curve.finalExponentiate pairingCheck
  if o = backend.curve.one then .ok true
  else .error (.assertionError "Pairing check failed.")

end VerkleVerification
