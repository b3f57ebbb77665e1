import StatelessEthereum.Interning
import StatelessEthereum.MerkleBuilt
import StatelessEthereum.MerkleVerifier

/- The deduplicated Merkle proof (prover/merkle_proof_optimized.py,
   verifier/merkle_verification_optimized.py): each node once, and for each key
   the positions of its nodes. Python's `hash` of a byte string is a parameter. -/
namespace MerkleOptimized
open PythonError BigEndian NibblePaths MerkleNodes MerkleForms MerkleTrees MerkleVerifiers MerkleBuilt
open Interning MerkleRefinement MerkleRuns

structure PathInfo where
  keyIdx : Nat
  nodeIndices : List Nat

structure DeduplicatedProof where
  nodes : List Bytes
  proofPaths : List PathInfo

section Prover
variable (pyHash : Bytes → Int) (scheme : Scheme) (secure : Bool) (tree : MerklePatriciaTrie)

/-- The loop over the keys, numbered from `keyIdx`. -/
def collectPaths : Table Bytes Int → Nat → List Bytes →
    Except PyError (Table Bytes Int × List PathInfo)
  | table, _, [] => .ok (table, [])
  | table, keyIdx, key :: rest => do
    let proofPath ← getProofTree scheme secure tree key
    let (table, keyNodeIndices) := internAll pyHash table proofPath
    let (table, proofPaths) ← collectPaths table (keyIdx + 1) rest
    .ok (table, ⟨keyIdx, keyNodeIndices⟩ :: proofPaths)

def generateProof (keys : List Bytes) : Except PyError (DeduplicatedProof × Bytes) := do
  let (table, proofPaths) ← collectPaths pyHash scheme secure tree .empty 0 keys
  .ok (⟨table.entries, proofPaths⟩, rootHash scheme tree)

end Prover

section Verifier
variable (keccak : Bytes → Bytes)

/-- The loop over the proof nodes. Unlike the plain verifier it prints none of
    the objects it compares. -/
def walkProof (expectedValue : Bytes) : List Bytes → NibblePath → Except PyError Bool
  | [], _ => .ok false
  | encodedNode :: rest, path =>
    match Node.decode encodedNode with
    | .error _ => .ok false
    | .ok (.leaf nodePath data) =>
      if !nodePath.eq path then .ok false
      else if !data.isBytes expectedValue then .ok false
      else .ok true
    | .ok (.extension nodePath nextRef) =>
      if !path.startsWith nodePath then .ok false
      else if !linked keccak nextRef rest then .ok false
      else walkProof expectedValue rest (path.consume nodePath.len)
    | .ok (.branch branches data) =>
      if path.len = 0 then .ok (data.isBytes expectedValue)
      else do
        let idx ← path.atIndex 0
        let branchRef ← entry branches idx
        let length ← branchRef.len
        if length = 0 then .ok false
        else if !linked keccak branchRef rest then .ok false
        else walkProof expectedValue rest (path.consume 1)

def verifySingleProof (proofNodes : List Bytes) (key expectedValue : Bytes)
    (rootHash : Option Bytes) : Except PyError Bool :=
  match proofNodes with
  | [] => .ok false
  | firstNodeEncoded :: _ => do
    let path ← NibblePaths.ofBytes key 0 16
    let computedHash := intoReferenceFromEncoded keccak firstNodeEncoded
    if computedHash.length = 32 ∧ some computedHash ≠ rootHash then do
      printHex (asReference rootHash)
      .ok false
    else walkProof keccak expectedValue proofNodes path

/-- The dictionary from keys to path entries, the last assignment first. -/
def keyToPathInfo (keys : List Bytes) :
    List PathInfo → List (Bytes × PathInfo) → Except PyError (List (Bytes × PathInfo))
  | [], found => .ok found
  | pathInfo :: rest, found =>
    match keys[pathInfo.keyIdx]? with
    | none => .error .indexError
    | some key => keyToPathInfo keys rest ((key, pathInfo) :: found)

def verifyEach (nodes : List Bytes) (found : List (Bytes × PathInfo)) (rootHash : Option Bytes) :
    List (Bytes × Bytes) → Except PyError Bool
  | [] => .ok true
  | (key, expectedValue) :: rest =>
    match found.lookup key with
    | none => .error (.keyError "")
    | some pathInfo =>
      match readAt nodes pathInfo.nodeIndices with
      | none => .error .indexError
      | some proofNodes => do
        if ← verifySingleProof keccak proofNodes key expectedValue rootHash then
          verifyEach nodes found rootHash rest
        else .ok false

def verifyProof (values keys : List Bytes) (rootHash : Option Bytes)
    (proof : DeduplicatedProof × Bytes) : Except PyError Bool := do
  let (deduplicated, witness) := proof
  if some witness ≠ rootHash then do
    printHex (asReference rootHash)
    .ok false
  else do
    let found ← keyToPathInfo keys deduplicated.proofPaths []
    verifyEach keccak deduplicated.nodes found rootHash (keys.zip values)

end Verifier

/- The two walks differ in what they print, which only matters for nodes that
   hold no byte strings. -/
section Agreement
variable {keccak : Keccak} {secure : Bool} {tree : MerklePatriciaTrie}

theorem walkProof_same (hash : Bytes → Bytes) (v : Bytes) {nodes : List Bytes}
    (shape : ∀ e ∈ nodes, NodeBytes e) (path : NibblePath) :
    walkProof hash v nodes path = MerkleVerifiers.walkProof hash v nodes path := by
  induction nodes generalizing path with
  | nil => rfl
  | cons e rest ih =>
    have below := ih fun x member => shape x (by simp [member])
    obtain ⟨node, decoded, kept⟩ := nodeBytes_decode (shape e (by simp))
    cases kept with
    | leaf hex => simp only [walkProof, MerkleVerifiers.walkProof, decoded, printHex, bind, Except.bind]
    | extension hex link => simp only [walkProof, MerkleVerifiers.walkProof, decoded, below]
    | branch slots =>
      rename_i branches b
      simp only [walkProof, MerkleVerifiers.walkProof, decoded, below]
      split
      · rfl
      · cases digit : path.atIndex 0 with
        | error e => rfl
        | ok idx =>
          cases child : entry branches idx with
          | error e => simp only [child, bind, Except.bind]
          | ok ref =>
            obtain ⟨r, rfl, _⟩ := slots.2 ref (entry_member child)
            simp only [child, printHex, bind, Except.bind]

theorem verifySingleProof_same (hash : Bytes → Bytes) {nodes : List Bytes}
    (shape : ∀ e ∈ nodes, NodeBytes e) (key v : Bytes) (root : Option Bytes) :
    verifySingleProof hash nodes key v root =
      MerkleVerifiers.verifySingleProof hash nodes key v root := by
  cases nodes with
  | nil => rfl
  | cons e rest =>
    simp only [verifySingleProof, MerkleVerifiers.verifySingleProof, walkProof_same hash v shape]

/- What the path entries say of the proofs. -/

inductive Describes (nodes : List Bytes) : Nat → List PathInfo → List (List Bytes) → Prop where
  | nil {k : Nat} : Describes nodes k [] []
  | cons {k : Nat} {positions : List Nat} {paths : List PathInfo} {proof : List Bytes}
      {proofs : List (List Bytes)} (read : readAt nodes positions = some proof)
      (rest : Describes nodes (k + 1) paths proofs) :
      Describes nodes k (⟨k, positions⟩ :: paths) (proof :: proofs)

theorem describes_at {nodes : List Bytes} {k : Nat} {paths : List PathInfo}
    {proofs : List (List Bytes)} (describes : Describes nodes k paths proofs) {i : Nat}
    {proof : List Bytes} (listed : proofs[i]? = some proof) :
    ∃ info, paths[i]? = some info ∧ info.keyIdx = k + i ∧
      readAt nodes info.nodeIndices = some proof := by
  induction describes generalizing i with
  | nil => simp at listed
  | cons read rest ih =>
    cases i with
    | zero =>
      simp only [List.getElem?_cons_zero, Option.some.injEq] at listed
      exact ⟨_, rfl, rfl, listed ▸ read⟩
    | succ i =>
      obtain ⟨info, found, index, same⟩ := ih listed
      exact ⟨info, found, by omega, same⟩

theorem collectPaths_describes (pyHash : Bytes → Int) {scheme : Scheme} (keys : List Bytes)
    {proofs : List (List Bytes)} (proved : keys.mapM (getProofTree scheme secure tree) = .ok proofs)
    {table : Table Bytes Int} (sound : Sound pyHash table) (keyIdx : Nat)
    (apart : ∀ a ∈ table.entries ++ proofs.flatten, ∀ b ∈ table.entries ++ proofs.flatten,
      pyHash a = pyHash b → a = b) :
    ∃ table' paths, collectPaths pyHash scheme secure tree table keyIdx keys = .ok (table', paths) ∧
      Sound pyHash table' ∧ table.entries <+: table'.entries ∧
      Describes table'.entries keyIdx paths proofs := by
  induction keys generalizing proofs table keyIdx with
  | nil =>
    cases proved
    exact ⟨table, [], rfl, sound, List.prefix_rfl, .nil⟩
  | cons key keys ih =>
    obtain ⟨proof, rest, here, later, rfl⟩ := mapM_cons_inv proved
    simp only [List.flatten_cons] at apart
    have read := internAll_reads proof sound fun a ha b hb => apart a (by grind) b (by grind)
    have inside : ∀ b ∈ (internAll pyHash table proof).1.entries ++ rest.flatten,
        b ∈ table.entries ++ (proof ++ rest.flatten) := by
      intro b member
      rcases List.mem_append.mp member with older | new
      · rcases internAll_entries proof table b older with first | mine
        · simp [first]
        · simp [mine]
      · simp [new]
    obtain ⟨table', paths, ran, sound', longer, describes⟩ := ih later
      (internAll_sound proof sound) (keyIdx + 1)
      fun a ha b hb => apart a (inside a ha) b (inside b hb)
    refine ⟨table', _, ?_, sound', (internAll_extends proof table).trans longer,
      .cons (readAt_extends longer read) describes⟩
    simp only [collectPaths, here, ran, bind, Except.bind]

/-- Every dictionary entry has the proof of its key. -/
def Faithful (nodes : List Bytes) (prove : Bytes → Except PyError (List Bytes))
    (found : List (Bytes × PathInfo)) : Prop :=
  ∀ key info, found.lookup key = some info →
    ∃ proof, prove key = .ok proof ∧ readAt nodes info.nodeIndices = some proof

theorem keyToPathInfo_faithful {nodes : List Bytes} {prove : Bytes → Except PyError (List Bytes)}
    {keys : List Bytes} (before rest : List Bytes) (split : keys = before ++ rest)
    {proofs : List (List Bytes)} (proved : rest.mapM prove = .ok proofs) {paths : List PathInfo}
    (describes : Describes nodes before.length paths proofs) {found : List (Bytes × PathInfo)}
    (faithful : Faithful nodes prove found) :
    ∃ found', keyToPathInfo keys paths found = .ok found' ∧ Faithful nodes prove found' ∧
      ∀ key, (∃ info, found.lookup key = some info) ∨ key ∈ rest →
        ∃ info, found'.lookup key = some info := by
  induction rest generalizing before proofs paths found with
  | nil =>
    cases proved
    cases describes
    exact ⟨found, rfl, faithful, by simp⟩
  | cons key rest ih =>
    obtain ⟨proof, others, here, later, rfl⟩ := mapM_cons_inv proved
    cases describes with
    | cons read describes =>
      rename_i positions paths
      have position : keys[before.length]? = some key := by simp [split]
      have extended : Faithful nodes prove ((key, ⟨before.length, positions⟩) :: found) := by
        intro k info present
        rw [List.lookup_cons] at present
        split at present
        · rename_i same
          cases present
          rw [beq_iff_eq.mp same]
          exact ⟨proof, here, read⟩
        · exact faithful k info present
      obtain ⟨found', made, faithful', known⟩ := ih (before ++ [key]) (by simp [split]) later
        (by simpa using describes) extended
      refine ⟨found', ?_, faithful', ?_⟩
      · simp only [keyToPathInfo, position, made]
      · intro k present
        apply known
        by_cases same : k = key
        · left
          exact ⟨⟨before.length, positions⟩, by simp [same]⟩
        · rcases present with ⟨info, older⟩ | member
          · left
            have off : (k == key) = false := by simpa using same
            exact ⟨info, by simp [List.lookup_cons, off, older]⟩
          · right
            simpa [same] using member

theorem verifyEach_same (hash : Bytes → Bytes) {nodes : List Bytes}
    {prove : Bytes → Except PyError (List Bytes)}
    (shape : ∀ key proof, prove key = .ok proof → ∀ e ∈ proof, NodeBytes e)
    {found : List (Bytes × PathInfo)} (faithful : Faithful nodes prove found) (root : Option Bytes)
    (keys : List Bytes) {proofs : List (List Bytes)} (proved : keys.mapM prove = .ok proofs)
    (known : ∀ key ∈ keys, ∃ info, found.lookup key = some info) (values : List Bytes) :
    verifyEach hash nodes found root (keys.zip values) =
      MerkleVerifiers.verifyEach hash root (proofs.zip (keys.zip values)) := by
  induction keys generalizing proofs values with
  | nil => cases proved; rfl
  | cons key keys ih =>
    obtain ⟨proof, others, here, later, rfl⟩ := mapM_cons_inv proved
    cases values with
    | nil => rfl
    | cons v values =>
      obtain ⟨info, present⟩ := known key (by simp)
      obtain ⟨proof', same, read⟩ := faithful key info present
      rw [here] at same
      cases same
      have rest := ih later (fun k member => known k (by simp [member])) values
      have single := verifySingleProof_same hash (shape key proof here) key v root
      simp only [List.zip_cons_cons, verifyEach, MerkleVerifiers.verifyEach, present, read, single,
        rest]

end Agreement

/-- The deduplicated proof holds the same paths as the plain one, each node
    once, and is judged in the same way. -/
theorem optimized_agrees (pyHash : Bytes → Int) {keccak : Keccak} {secure : Bool}
    {tree : MerklePatriciaTrie} (built : Built keccak secure tree) (keys : List Bytes)
    {plain : List (List Bytes) × Bytes}
    (made : MerkleVerifiers.generateProof (keccakScheme keccak.hash) secure tree keys = .ok plain)
    (apart : ∀ a ∈ plain.1.flatten, ∀ b ∈ plain.1.flatten, pyHash a = pyHash b → a = b) :
    ∃ proof, generateProof pyHash (keccakScheme keccak.hash) secure tree keys = .ok proof ∧
      proof.1.nodes.Nodup ∧
      (∀ i (inside : i < keys.length), ∃ info path, proof.1.proofPaths[i]? = some info ∧
        info.keyIdx = i ∧ getProofTree (keccakScheme keccak.hash) secure tree keys[i] = .ok path ∧
        readAt proof.1.nodes info.nodeIndices = some path) ∧
      ∀ values root, verifyProof keccak.hash values keys root proof =
        MerkleVerifiers.verifyProof keccak.hash values keys root plain := by
  obtain ⟨proofs, proved, rest⟩ := ok_of_bind made
  cases rest
  obtain ⟨table, paths, ran, sound, _, describes⟩ := collectPaths_describes pyHash keys proved
    (sound_empty pyHash) 0 (by simpa [Table.empty] using apart)
  refine ⟨(⟨table.entries, paths⟩, rootHash (keccakScheme keccak.hash) tree), ?_,
    sound_nodup sound, ?_, ?_⟩
  · simp only [generateProof, ran, bind, Except.bind]
  · intro i inside
    obtain ⟨path, here, listed⟩ := mapM_at proved (List.getElem?_eq_getElem inside)
    obtain ⟨info, found, index, read⟩ := describes_at describes listed
    exact ⟨info, path, found, by omega, here, read⟩
  · intro values root
    have start : Faithful table.entries
        (getProofTree (keccakScheme keccak.hash) secure tree) [] := by
      intro key info absent
      simp at absent
    obtain ⟨found, dictionary, faithful, known⟩ :=
      keyToPathInfo_faithful [] keys rfl proved describes start
    rw [List.nil_append] at dictionary
    have loop := verifyEach_same keccak.hash (fun key proof => getProofTree_nodeBytes built) faithful
      root keys proved (fun key member => known key (Or.inr member)) values
    simp only [verifyProof, MerkleVerifiers.verifyProof, dictionary, loop, bind, Except.bind]

/- The sample trie, with a key proved twice. -/

def sampleTree : MerklePatriciaTrie := (insertRun (keccakScheme sampleKeccak.hash) sampleRun).2

def sampleKeys : List Bytes := [[0x12, 0x34], [0x12], [0x12, 0x34]]

def samplePlain : List (List Bytes) × Bytes :=
  (MerkleVerifiers.generateProof (keccakScheme sampleKeccak.hash) false sampleTree sampleKeys)
    |>.toOption.getD ([], [])

def samplePyHash (b : Bytes) : Int := ofBytes (1 :: b)

theorem samplePlain_made :
    MerkleVerifiers.generateProof (keccakScheme sampleKeccak.hash) false sampleTree sampleKeys =
      .ok samplePlain := by
  have fine : (MerkleVerifiers.generateProof (keccakScheme sampleKeccak.hash) false sampleTree
      sampleKeys).toBool = true := by decide +kernel
  unfold samplePlain
  cases made : MerkleVerifiers.generateProof (keccakScheme sampleKeccak.hash) false sampleTree
      sampleKeys with
  | error e => simp [made, Except.toBool] at fine
  | ok plain => rfl

theorem optimized_agrees_sample :
    ∃ proof, generateProof samplePyHash (keccakScheme sampleKeccak.hash) false sampleTree
        sampleKeys = .ok proof ∧ proof.1.nodes.Nodup ∧
      ∀ values root, verifyProof sampleKeccak.hash values sampleKeys root proof =
        MerkleVerifiers.verifyProof sampleKeccak.hash values sampleKeys root samplePlain := by
  obtain ⟨proof, made, distinct, _, same⟩ := optimized_agrees samplePyHash
    (built_run .empty sampleRun.plain) sampleKeys samplePlain_made (by decide +kernel)
  exact ⟨proof, made, distinct, same⟩

end MerkleOptimized
