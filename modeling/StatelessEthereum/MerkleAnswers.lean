import StatelessEthereum.MerkleSoundness

/- When the Merkle verifier gives an answer. What it reads from the bytes of a
   node is guarded, what it does with the node is not: each node of the walk
   must hold the objects that the walk handles there. -/
namespace MerkleAnswers
open PythonError BigEndian RlpFormat NibblePaths MerkleNodes
open MerkleStorage MerkleRuns MerkleVerifiers MerkleCompleteness MerkleSoundness

section Walks
variable (keccak : Bytes → Bytes)

/-- The walk goes on from a node to the next proof node, and how much of the
    path is then left. -/
inductive Follows (rest : List Bytes) (path : NibblePath) : Node → NibblePath → Prop where
  | extension {nodePath : NibblePath} {nextRef : PyObj}
      (starts : path.startsWith nodePath = true) (link : linked keccak nextRef rest = true) :
      Follows rest path (.extension nodePath nextRef) (path.consume nodePath.len)
  | branch {branches : List PyObj} {data : PyObj} {idx : Nat} {ref : Bytes}
      (going : path.len ≠ 0) (digit : path.atIndex 0 = .ok idx)
      (held : entry branches idx = .ok (.bytes ref)) (some : ref ≠ [])
      (link : linked keccak (.bytes ref) rest = true) :
      Follows rest path (.branch branches data) (path.consume 1)

/-- The nodes that a walk comes to, each with the path left there. -/
inductive Reaches : List Bytes → NibblePath → Node → NibblePath → Prop where
  | here {encoded : Bytes} {rest : List Bytes} {path : NibblePath} {node : Node}
      (decoded : Node.decode encoded = .ok node) : Reaches (encoded :: rest) path node path
  | next {encoded : Bytes} {rest : List Bytes} {path moved stop : NibblePath} {node last : Node}
      (decoded : Node.decode encoded = .ok node) (follows : Follows keccak rest path node moved)
      (later : Reaches rest moved last stop) : Reaches (encoded :: rest) path last stop

end Walks

/-- A leaf with the path asked for holds a byte string. A branch that is entered
    has an entry for the next digit, and that is a byte string. -/
def Readable (path : NibblePath) : Node → Prop
  | .leaf nodePath data => nodePath.eq path = true → ∃ b, data = .bytes b
  | .extension _ _ => True
  | .branch branches _ => path.len = 0 ∨
      ∃ idx ref, path.atIndex 0 = .ok idx ∧ entry branches idx = .ok (.bytes ref)

theorem usage_no_list {x : Item} {xs : List Item} :
    prepareReferenceForUsage (.ofItem x) ≠ .ok (.list xs) := by
  intro used
  cases x with
  | str b => cases used
  | list ys =>
    obtain ⟨encoded, _, same⟩ := ok_of_bind used
    cases same

/-- The entries of a decoded branch are byte strings, or integers where the
    encoding was one byte string. -/
theorem decoded_entry {encoded : Bytes} {branches : List PyObj} {data : PyObj}
    (decoded : Node.decode encoded = .ok (.branch branches data)) (xs : List Item) :
    .list xs ∉ branches := by
  intro member
  obtain ⟨item, _, body⟩ := ok_of_bind decoded
  cases item with
  | str b =>
    change Node.decodeString b = _ at body
    unfold Node.decodeString at body
    split at body
    · simp at body
    · split at body
      · simp at body
      · cases body
        obtain ⟨x, _, same⟩ := List.mem_map.mp member
        cases same
  | list items =>
    change Node.decodeList items = _ at body
    unfold Node.decodeList at body
    split at body
    · obtain ⟨⟨path, isLeaf⟩, _, body⟩ := ok_of_bind body
      simp only at body
      split at body
      · cases body
      · obtain ⟨ref, _, same⟩ := ok_of_bind body
        cases same
    · split at body
      · simp at body
      · obtain ⟨_, mapped, same⟩ := ok_of_bind body
        cases same
        obtain ⟨x, _, used⟩ := mapM_member mapped member
        exact usage_no_list used

theorem printHex_ok_iff (o : PyObj) : printHex o = .ok () ↔ ∃ b, o = .bytes b := by
  cases o <;> simp [printHex]

section Walks
variable {keccak : Bytes → Bytes} {value : Bytes}

theorem leaf_answers {encoded : Bytes} {rest : List Bytes} {path nodePath : NibblePath}
    {data : PyObj} (decoded : Node.decode encoded = .ok (.leaf nodePath data)) :
    (∃ answer, walkProof keccak value (encoded :: rest) path = .ok answer) ↔
      Readable path (.leaf nodePath data) := by
  unfold walkProof
  rw [decoded]
  simp only [Readable]
  split
  · rename_i different
    exact ⟨fun _ same => by simp [same] at different, fun _ => ⟨false, rfl⟩⟩
  · rename_i same
    simp only [Bool.not_eq_true, Bool.not_eq_false'] at same
    simp only [same, forall_const]
    split
    · constructor
      · rintro ⟨answer, run⟩
        obtain ⟨⟨⟩, printed, _⟩ := ok_of_bind run
        exact (printHex_ok_iff data).mp printed
      · rintro ⟨b, rfl⟩
        exact ⟨false, rfl⟩
    · rename_i stored
      simp only [Bool.not_eq_true, Bool.not_eq_false'] at stored
      exact ⟨fun _ => ⟨value, (isBytes_iff data value).mp stored⟩, fun _ => ⟨true, rfl⟩⟩

theorem extension_answers {encoded : Bytes} {rest : List Bytes} {path nodePath : NibblePath}
    {nextRef : PyObj} (decoded : Node.decode encoded = .ok (.extension nodePath nextRef)) :
    (∃ answer, walkProof keccak value (encoded :: rest) path = .ok answer) ↔
      ∀ moved, Follows keccak rest path (.extension nodePath nextRef) moved →
        ∃ answer, walkProof keccak value rest moved = .ok answer := by
  rw [walkProof, decoded]
  simp only
  split
  · rename_i apart
    constructor
    · rintro _ _ ⟨starts, _⟩
      simp [starts] at apart
    · intro _
      exact ⟨false, rfl⟩
  · rename_i starts
    simp only [Bool.not_eq_true, Bool.not_eq_false'] at starts
    split
    · rename_i broken
      constructor
      · rintro _ _ ⟨_, link⟩
        simp [link] at broken
      · intro _
        exact ⟨false, rfl⟩
    · rename_i link
      simp only [Bool.not_eq_true, Bool.not_eq_false'] at link
      constructor
      · rintro answers _ ⟨⟩
        exact answers
      · intro onward
        exact onward _ (.extension starts link)

theorem branch_answers {encoded : Bytes} {rest : List Bytes} {path : NibblePath}
    {branches : List PyObj} {data : PyObj}
    (decoded : Node.decode encoded = .ok (.branch branches data)) :
    (∃ answer, walkProof keccak value (encoded :: rest) path = .ok answer) ↔
      Readable path (.branch branches data) ∧
        ∀ moved, Follows keccak rest path (.branch branches data) moved →
          ∃ answer, walkProof keccak value rest moved = .ok answer := by
  rw [walkProof, decoded]
  simp only [Readable]
  split
  · rename_i ended
    constructor
    · intro _
      refine ⟨Or.inl ended, ?_⟩
      rintro _ ⟨⟩
      contradiction
    · intro _
      exact ⟨_, rfl⟩
  · rename_i going
    constructor
    · rintro ⟨answer, run⟩
      obtain ⟨idx, digit, indexed⟩ := ok_of_bind run
      obtain ⟨branchRef, held, measured⟩ := ok_of_bind indexed
      obtain ⟨length, size, checked⟩ := ok_of_bind measured
      cases branchRef with
      | none => cases size
      | int n => cases size
      | list xs => exact absurd (entry_member held) (decoded_entry decoded xs)
      | bytes ref =>
        cases size
        refine ⟨Or.inr ⟨idx, ref, digit, held⟩, ?_⟩
        rintro _ (_ | ⟨_, again, stored, some, link⟩)
        cases digit.symm.trans again
        cases held.symm.trans stored
        rw [if_neg (by simpa using some), link] at checked
        exact ⟨answer, by simpa using checked⟩
    · rintro ⟨ended | ⟨idx, ref, digit, held⟩, onward⟩
      · exact absurd ended going
      · simp only [digit, held, bind, Except.bind, PyObj.len]
        by_cases none : ref = []
        · exact ⟨false, by simp [none]⟩
        · rw [if_neg (by simpa using none)]
          cases link : linked keccak (.bytes ref) rest with
          | false => exact ⟨false, rfl⟩
          | true => exact onward _ (.branch going digit held none link)

/-- One step: the walk gives an answer if the node can be read and the walk from
    the next node gives one. -/
theorem step_answers (encoded : Bytes) (rest : List Bytes) (path : NibblePath) :
    (∃ answer, walkProof keccak value (encoded :: rest) path = .ok answer) ↔
      ∀ node, Node.decode encoded = .ok node → Readable path node ∧
        ∀ moved, Follows keccak rest path node moved →
          ∃ answer, walkProof keccak value rest moved = .ok answer := by
  cases decoded : Node.decode encoded with
  | error e =>
    constructor
    · rintro _ _ ⟨⟩
    · intro _
      exact ⟨false, by simp [walkProof, decoded]⟩
  | ok node =>
    simp only [Except.ok.injEq, forall_eq']
    cases node with
    | leaf nodePath data =>
      rw [leaf_answers decoded]
      constructor
      · intro readable
        refine ⟨readable, ?_⟩
        rintro _ ⟨⟩
      · exact And.left
    | extension nodePath nextRef =>
      rw [extension_answers decoded]
      simp [Readable]
    | branch branches data => exact branch_answers decoded

/-- The whole walk: every node that it comes to can be read. -/
theorem walk_answers (proofNodes : List Bytes) (path : NibblePath) :
    (∃ answer, walkProof keccak value proofNodes path = .ok answer) ↔
      ∀ node stop, Reaches keccak proofNodes path node stop → Readable stop node := by
  induction proofNodes generalizing path with
  | nil =>
    constructor
    · rintro _ _ _ ⟨⟩
    · intro _
      exact ⟨false, rfl⟩
  | cons encoded rest ih =>
    rw [step_answers]
    constructor
    · rintro steps last stop (decoded | ⟨decoded, follows, later⟩)
      · exact (steps _ decoded).1
      · exact (ih _).mp ((steps _ decoded).2 _ follows) _ _ later
    · intro readable node decoded
      refine ⟨readable _ _ (.here decoded), fun moved follows => (ih _).mpr ?_⟩
      intro last stop later
      exact readable _ _ (.next decoded follows later)

end Walks

/-- The walk is entered: the first node passes for the root. -/
def Opened (keccak : Bytes → Bytes) (rootHash : Bytes) : List Bytes → Prop
  | [] => False
  | firstNodeEncoded :: _ =>
    let computedHash := intoReferenceFromEncoded keccak firstNodeEncoded
    computedHash.length = 32 → computedHash = rootHash

/-- The verifier gives an answer exactly if it can read every node that it comes
    to, in a proof that passes the comparison with the root. -/
theorem verifier_answers_iff (keccak : Bytes → Bytes) (proofNodes : List Bytes)
    (key expectedValue rootHash : Bytes) :
    ∃ path, NibblePaths.ofBytes key 0 16 = .ok path ∧
      ((∃ answer, verifySingleProof keccak proofNodes key expectedValue (some rootHash) =
          .ok answer) ↔
        (Opened keccak rootHash proofNodes →
          ∀ node stop, Reaches keccak proofNodes path node stop → Readable stop node)) := by
  obtain ⟨path, made, _⟩ := ofBytes_hex key 0
  refine ⟨path, made, ?_⟩
  cases proofNodes with
  | nil => exact ⟨fun _ none => none.elim, fun _ => ⟨false, rfl⟩⟩
  | cons firstNodeEncoded rest =>
    simp only [verifySingleProof, made, bind, Except.bind, Opened]
    split
    · rename_i refused
      constructor
      · intro _ opened
        exact absurd (congrArg some (opened refused.1)) refused.2
      · intro _
        exact ⟨false, rfl⟩
    · rename_i passed
      rw [walk_answers]
      constructor
      · intro readable _
        exact readable
      · intro readable
        refine readable fun hashed => ?_
        by_contra other
        exact passed ⟨hashed, fun same => other (Option.some.inj same)⟩

/-- A leaf that holds a list, a branch of two entries asked for its sixteenth,
    and a byte string that passes for a branch: the verifier raises. -/
theorem walk_raises :
    let rootHash : Bytes := List.replicate 32 0
    rootHash.length = 32 ∧
    verifySingleProof sampleKeccak.hash [[0xc2, 0x20, 0xc0]] [] [1] (some rootHash) =
      .error .attributeError ∧
    verifySingleProof sampleKeccak.hash [[0xc3, 0x80, 0x80, 0x80]] [0xff] [1] (some rootHash) =
      .error .indexError ∧
    verifySingleProof sampleKeccak.hash [[0x83, 1, 2, 3]] [0x00] [1] (some rootHash) =
      .error (.typeError "") := by
  decide

end MerkleAnswers
