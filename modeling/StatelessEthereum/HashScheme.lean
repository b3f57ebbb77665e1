import StatelessEthereum.VerkleSerialization

/- Hashes of commitments and the factors of a proof (verkle/hash_scheme.py,
   verkle/randomness_scheme.py, verkle/utils/key_to_path.py). SHA-256 is a parameter. -/
namespace HashScheme
open PythonError BigEndian VerkleSerialization
variable (sha256 : Bytes → Bytes)

/-- A number as `repr` writes it. -/
def decimal (n : Nat) : Bytes := (Nat.toDigits 10 n).map fun c => UInt8.ofNat c.toNat

/-- `str(pt).encode('utf-8')`: "(x, y)" -/
def pointText (pt : Point2D) : Bytes :=
  40 :: (decimal pt.x ++ ([44, 32] ++ (decimal pt.y ++ [41])))

def hashPointToField (pt : Point2D) (modulus : Nat) : Nat := ofBytes (sha256 (pointText pt)) % modulus

def fixedLengthBytes (i length : Nat) : Except PyError Bytes :=
  let needed := byteLength i
  if length < needed then
    .error (.overflowError ("Integer requires " ++ toString needed ++ " bytes but fixed length is " ++
      toString length ++ ". " ++
      "This likely means the fixed length was computed from the wrong modulus."))
  else .ok (toBytes length i)

/-- With the arguments every caller leaves at their defaults. -/
def generateRootBytes (rootCommitment : Point2D) : Except PyError Bytes := do
  let coordLen := byteLength FIELD_MODULUS
  let xBytes ← fixedLengthBytes rootCommitment.x coordLen
  let yBytes ← fixedLengthBytes rootCommitment.y coordLen
  .ok (4 :: (xBytes ++ yBytes))

def pathBytes (path : List Nat) : Except PyError Bytes := do
  let parts ← path.mapM (intToBytes 2)
  .ok parts.flatten

/-- What is hashed of one of several paths: a separator after it. -/
def separatedBytes (path : List Nat) : Except PyError Bytes := do
  let bytes ← pathBytes path
  .ok (bytes ++ [0xFF])

/-- `<=` of two lists. -/
def pathLe : List Nat → List Nat → Bool
  | [], _ => true
  | _ :: _, [] => false
  | a :: as, b :: bs => a < b || (a == b && pathLe as bs)

def deriveR (rootBytes : Bytes) (paths : List (List Nat)) (curveOrder : Nat) :
    Except PyError Nat := do
  let parts ← (paths.mergeSort pathLe).mapM separatedBytes
  .ok (ofBytes (sha256 (rootBytes ++ parts.flatten)) % curveOrder)

def deriveRFactorHash (rootBytes : Bytes) (path : List Nat) (level curveOrder : Nat) :
    Except PyError Nat := do
  let bytes ← pathBytes path
  let levelBytes ← intToBytes 2 level
  .ok (ofBytes (sha256 (rootBytes ++ (bytes ++ levelBytes))) % curveOrder)

/-- `_key_to_path`: the bits of a key, filled up in front, in steps. -/
def keyToPath (width : Nat) (key : Bytes) : Except PyError (List Nat) :=
  if width = 0 then .error (.valueError "")
  else
    let stepBits := width.log2
    if stepBits = 0 then .error .zeroDivisionError
    else
      let steps := (8 * key.length + stepBits - 1) / stepBits
      .ok ((List.range steps).map fun i =>
        ofBytes key >>> ((steps - 1 - i) * stepBits) % 2 ^ stepBits)

/- None of these raises on what a tree has. -/

theorem generateRootBytes_ok (pt : Point2D) : ∃ bytes, generateRootBytes pt = .ok bytes := by
  have length : byteLength FIELD_MODULUS = 48 := by decide
  have fits (i : Fin FIELD_MODULUS) : byteLength i ≤ 48 := by
    have small : i.val < 2 ^ 384 := Nat.lt_trans i.isLt (by decide +kernel)
    have bits := bitLength_le small
    unfold byteLength
    omega
  refine ⟨4 :: (toBytes 48 pt.x ++ toBytes 48 pt.y), ?_⟩
  simp only [generateRootBytes, fixedLengthBytes, length, Nat.not_lt.mpr (fits _), ↓reduceIte, bind,
    Except.bind]

theorem pathBytes_ok {path : List Nat} (small : ∀ i ∈ path, i < 256 ^ 2) :
    ∃ bytes, pathBytes path = .ok bytes := by
  obtain ⟨parts, run, _⟩ := mapM_ok (R := fun _ _ => True) (f := intToBytes 2) (l := path)
    fun i member => ⟨_, intToBytes_ok (small i member), trivial⟩
  exact ⟨parts.flatten, by simp only [pathBytes, run, bind, Except.bind]⟩

theorem deriveR_ok (rootBytes : Bytes) (paths : List (List Nat))
    (small : ∀ path ∈ paths, ∀ i ∈ path, i < 256 ^ 2) (curveOrder : Nat) :
    ∃ r, deriveR sha256 rootBytes paths curveOrder = .ok r := by
  obtain ⟨parts, run, _⟩ := mapM_ok (R := fun _ _ => True)
    (l := paths.mergeSort pathLe) (f := separatedBytes) fun path member => by
      obtain ⟨bytes, run⟩ := pathBytes_ok (small path (List.mem_mergeSort.mp member))
      exact ⟨bytes ++ [0xFF], by simp only [separatedBytes, run, bind, Except.bind], trivial⟩
  exact ⟨_, by simp only [deriveR, run, bind, Except.bind]; rfl⟩

theorem deriveRFactorHash_ok (rootBytes : Bytes) {path : List Nat} {level : Nat}
    (small : ∀ i ∈ path, i < 256 ^ 2) (shallow : level < 256 ^ 2) (curveOrder : Nat) :
    ∃ r, deriveRFactorHash sha256 rootBytes path level curveOrder = .ok r := by
  obtain ⟨bytes, run⟩ := pathBytes_ok small
  exact ⟨_, by simp only [deriveRFactorHash, run, intToBytes_ok shallow, bind, Except.bind]; rfl⟩

theorem keyToPath_ok {width : Nat} (wide : 2 ≤ width) (few : width ≤ 256 ^ 2) (key : Bytes) :
    ∃ path, keyToPath width key = .ok path ∧ ∀ i ∈ path, i < 256 ^ 2 := by
  have some : width.log2 ≠ 0 := by
    have positive := (Nat.le_log2 (by omega) (k := 1)).mpr wide
    omega
  refine ⟨_, by rw [keyToPath, if_neg (by omega), if_neg some], ?_⟩
  intro i member
  obtain ⟨j, _, rfl⟩ := List.mem_map.mp member
  have small := Nat.mod_lt (ofBytes key >>> (((8 * key.length + width.log2 - 1) / width.log2 - 1 - j) *
    width.log2)) (Nat.two_pow_pos width.log2)
  have bound := Nat.log2_self_le (n := width) (by omega)
  omega

end HashScheme
