import StatelessEthereum.MerkleRuns

/- The trie of tree/poseidon_merkle_tree.py: the class copies the Merkle trie and
   files a node under the hash of its whole encoding, read as one number modulo
   the field prime. The hasher is a parameter. -/
namespace PoseidonTrie
open PythonError BigEndian MerkleNodes MerkleForms PutLog CompactTrie
open MerkleTrees hiding insert get
open MerkleStorage MerkleRuns

def FIELD_MOD : Nat :=
  21888242871839275222246405745257275088548364400416034343698204186575808495617

/-- `poseidon.Poseidon`: it hashes field elements to field elements. -/
structure Hasher where
  runHash : Nat → Nat
  below : ∀ x, runHash x < FIELD_MOD

def fieldElement (data : Bytes) : Nat := ofBytes data % FIELD_MOD

section Hash
variable (hasher : Hasher)

def poseidonHashBytes (data : Bytes) : Bytes := toBytes 32 (hasher.runHash (fieldElement data))

def nodeToReference (node : Node) : Except PyError Bytes := do
  let encoded ← node.encode
  .ok (if encoded.length < 32 then encoded else poseidonHashBytes hasher encoded)

def poseidonScheme : Scheme where
  hash := poseidonHashBytes hasher
  encode := Node.encode
  reference := nodeToReference hasher
  decode := Node.decode

def bytesHash : Keccak := ⟨poseidonHashBytes hasher, fun _ => toBytes_length _ _⟩

theorem poseidonScheme_eq : poseidonScheme hasher = keccakScheme (bytesHash hasher).hash := rfl

/-- The hasher gives equal results to equal field elements only. -/
def Distinguishes (elements : List Nat) : Prop :=
  ∀ x ∈ elements, ∀ y ∈ elements, hasher.runHash x = hasher.runHash y → x = y

instance (elements : List Nat) : Decidable (Distinguishes hasher elements) :=
  inferInstanceAs (Decidable (∀ x ∈ elements, ∀ y ∈ elements,
    hasher.runHash x = hasher.runHash y → x = y))

/-- Different encodings differ modulo the prime. -/
def Incongruent (encodings : List Bytes) : Prop :=
  ∀ a ∈ encodings, ∀ b ∈ encodings, fieldElement a = fieldElement b → a = b

instance (encodings : List Bytes) : Decidable (Incongruent encodings) :=
  inferInstanceAs (Decidable (∀ a ∈ encodings, ∀ b ∈ encodings,
    fieldElement a = fieldElement b → a = b))

theorem hash_separates {encodings : List Bytes}
    (distinct : Distinguishes hasher (encodings.map fieldElement))
    (apart : Incongruent encodings) : Separates (poseidonHashBytes hasher) encodings := by
  intro a ha b hb same
  have limit : FIELD_MOD < 256 ^ 32 := by decide
  have results := toBytes_injective (Nat.lt_trans (hasher.below _) limit)
    (Nat.lt_trans (hasher.below _) limit) same
  exact apart a ha b hb (distinct _ (List.mem_map_of_mem ha) _ (List.mem_map_of_mem hb) results)

end Hash

/-- The trie is a map over every run whose nodes stay apart modulo the prime. -/
theorem poseidon_trie_map (hasher : Hasher) (run : Run) (long : ∀ e ∈ run, 32 ≤ e.2.bytes.length)
    (distinct : Distinguishes hasher
      ((storedEncodings (insertRun (poseidonScheme hasher) run).2).map fieldElement))
    (apart : Incongruent (storedEncodings (insertRun (poseidonScheme hasher) run).2)) :
    (insertRun (poseidonScheme hasher) run).1 = .ok () ∧
    ∀ e ∈ run, ∃ v, lastInserted run e.1.bytes = some v ∧
      MerkleTrees.get (poseidonScheme hasher) false (insertRun (poseidonScheme hasher) run).2
        e.1.bytes = .ok (.bytes v) := by
  have separate := hash_separates hasher distinct apart
  rw [poseidonScheme_eq] at separate ⊢
  obtain ⟨fine, shown⟩ := keccak_run (bytesHash hasher) long separate
  refine ⟨fine, fun e member => ?_⟩
  obtain ⟨v, last⟩ := lastInserted_of_member member
  exact ⟨v, last, get_lookup shown (good_run (bytesHash hasher) separate)
    ((trieOf_lookup run _).trans last)⟩

/- Two values that differ by the prime. -/

/-- A field element stands for itself. -/
def plainHasher : Hasher := ⟨fun x => x % FIELD_MOD, fun _ => Nat.mod_lt _ (by decide)⟩

def sampleKey (first : UInt8) : ByteString where
  bytes := first :: List.replicate 31 0x11
  fits := by
    rw [List.length_cons, List.length_replicate]
    decide

def sampleValue (n : Nat) : ByteString where
  bytes := toBytes 32 n
  fits := by
    rw [toBytes_length]
    decide

def partedRun : Run := [(sampleKey 0x00, sampleValue 7), (sampleKey 0x10, sampleValue 8)]

theorem poseidon_trie_map_sample :
    (insertRun (poseidonScheme plainHasher) partedRun).1 = .ok () ∧
    ∀ e ∈ partedRun, ∃ v, lastInserted partedRun e.1.bytes = some v ∧
      MerkleTrees.get (poseidonScheme plainHasher) false
        (insertRun (poseidonScheme plainHasher) partedRun).2 e.1.bytes = .ok (.bytes v) :=
  poseidon_trie_map plainHasher partedRun (by decide) (by decide +kernel) (by decide +kernel)

def forkedRun : Run :=
  [(sampleKey 0x00, sampleValue 7), (sampleKey 0x10, sampleValue (7 + FIELD_MOD))]

/-- The leaf of the first key is filed over that of the second. -/
theorem poseidon_trie_not_map :
    (∀ e ∈ forkedRun, e.1.bytes.length = 32 ∧ 32 ≤ e.2.bytes.length) ∧
    Distinguishes plainHasher
      ((storedEncodings (insertRun (poseidonScheme plainHasher) forkedRun).2).map fieldElement) ∧
    (insertRun (poseidonScheme plainHasher) forkedRun).1 = .ok () ∧
    lastInserted forkedRun (sampleKey 0x10).bytes = some (sampleValue (7 + FIELD_MOD)).bytes ∧
    (sampleValue 7).bytes ≠ (sampleValue (7 + FIELD_MOD)).bytes ∧
    ((MerkleTrees.get (poseidonScheme plainHasher) false
      (insertRun (poseidonScheme plainHasher) forkedRun).2 (sampleKey 0x10).bytes).toOption.map
        fun data => data.isBytes (sampleValue 7).bytes) = some true := by
  decide +kernel

end PoseidonTrie
