import StatelessEthereum.MerkleSessions
import StatelessEthereum.SnarkChain

/- A trie in Poseidon mode over many processes, up to the inputs that the SNARK prover
   makes from it. -/
namespace PoseidonSessions
open PythonError BigEndian NibblePaths MerkleNodes MerkleForms StateEffect PutLog DiskLog
open CompactTrie CrashRecovery DiskSessions
open MerkleTrees hiding insert get
open MerkleStorage MerkleRefinement MerkleRuns MerkleCollect ZkEncoding PoseidonMode SnarkWitness
open SnarkChain
open PoseidonTrie (sampleKey sampleValue)
open MerkleSessions hiding Entry session_good session_kept session_addressed

abbrev ZkEntry (worker : Worker) := MerkleSessions.Entry (zkScheme worker) zkLimits false

abbrev zkKeeper (worker : Worker) : Keeper MerklePatriciaTrie (ZkEntry worker) :=
  trieKeeper (zkCodec worker) false

section Sessions
variable {worker : Worker} {s : List (ZkEntry worker) × MerklePatriciaTrie}

/-- What inserts keep of the stored pairs is kept over restarts and stops. -/
theorem session_puts {P : Bytes × Bytes → Prop}
    (each : ∀ key value t, (∀ p ∈ t.disk.db.puts, P p) →
      ∀ p ∈ (MerkleTrees.insert (zkScheme worker) false key value t).2.disk.db.puts, P p)
    (session : Session (zkKeeper worker) s) : ∀ p ∈ s.2.disk.db.puts, P p := by
  induction session with
  | refl => simp [trieKeeper, emptyTrie, openTrie, Disk.db]
  | tail _ step ih =>
    cases step with
    | insert run t e => exact each e.key e.value t ih
    | reopen run opened =>
      cases opened
      exact ih
    | @stop run t u e d stops opened =>
      cases opened
      intro p member
      exact each e.key e.value t ih p ((suffix_db stops.2).subset member)

theorem session_good (session : Session (zkKeeper worker) s)
    (nonzero : ∀ e ∈ storedEncodings s.2, ∀ x ∈ callsFor worker e, worker.hash x ≠ 0)
    (distinct : Separates (poseidonHashBytes worker) (storedEncodings s.2)) :
    Good zkLimits s.2 := by
  have addressed : ∀ p ∈ s.2.disk.db.puts, p.1 = poseidonHashBytes worker p.2 :=
    session_puts (fun key value t => (insert_grows (zkCodec worker) false key value t).addressed)
      session
  have some : ∀ p ∈ s.2.disk.db.puts, p.2 ≠ [] :=
    session_puts (fun key value t => insert_nonempty worker key value t) session
  refine ⟨consistent_of_digest (poseidonHashBytes worker) addressed distinct, fun p member => ?_⟩
  rw [addressed p member]
  exact sponge_reference (some p member) (nonzero p.2 (List.mem_map_of_mem member))

end Sessions

/- The inputs for the keys of a trie. -/
section Batches
variable {worker : Worker} {T : NibbleTrie} {t : MerklePatriciaTrie} (good : Good zkLimits t)
  (shown : Represents (zkCodec worker) T t)
  (even : ∀ k w, lookup T k = some w → k.length = 64)
include good shown even

theorem key_input {key v : Bytes} (found : lookup T (nibbles key) = some v) : ∃ proof entry,
    MerkleTrees.get (zkScheme worker) false t key = .ok (.bytes v) ∧
    getProofTree (zkScheme worker) false t key = .ok proof ∧
    batchEntry (rootHash (zkScheme worker) t) key (.bytes v) proof = .ok entry ∧
    entry.publics = publicSignals (rootHash (zkScheme worker) t) v ∧ HashChain worker entry := by
  have level (l : List Nat) (w : Bytes) (answer : lookup T l = some w) :
      l.length = (nibbles key).length := (even l w answer).trans (even _ v found).symm
  obtain ⟨entry, built, publics, chain⟩ := batchEntry_chain good shown.valid shown.written found
    level (rootHash_occupied shown (lookup_occupied found))
  exact ⟨_, entry, get_lookup shown good found, getProofTree_forms good shown found, built, publics,
    chain⟩

theorem batches_chain {keys : List Bytes} (known : ∀ key ∈ keys, lookup T (nibbles key) ≠ none) :
    ∃ batches, generateBatches worker t keys = .ok batches ∧
      ∀ (i : Nat) key, keys[i]? = some key → ∃ v batch entry, lookup T (nibbles key) = some v ∧
        batches[i / KEYS_BATCH_SIZE]? = some batch ∧ batch[i % KEYS_BATCH_SIZE]? = some entry ∧
        entry.publics = publicSignals (rootHash (zkScheme worker) t) v ∧ HashChain worker entry := by
  have each (key : Bytes) (member : key ∈ keys) : ∃ v proof entry,
      lookup T (nibbles key) = some v ∧
      MerkleTrees.get (zkScheme worker) false t key = .ok (.bytes v) ∧
      getProofTree (zkScheme worker) false t key = .ok proof ∧
      batchEntry (rootHash (zkScheme worker) t) key (.bytes v) proof = .ok entry ∧
      entry.publics = publicSignals (rootHash (zkScheme worker) t) v ∧ HashChain worker entry := by
    obtain ⟨v, found⟩ := Option.ne_none_iff_exists'.mp (known key member)
    obtain ⟨proof, entry, input⟩ := key_input good shown even found
    exact ⟨v, proof, entry, found, input⟩
  by_cases none : keys = []
  · subst none
    exact ⟨[], rfl, by simp⟩
  obtain ⟨some, inside⟩ := List.exists_mem_of_ne_nil keys none
  obtain ⟨_, _, entry, _⟩ := each some inside
  have inhabited : Inhabited Entry := ⟨entry⟩
  choose! v proof entry found got collected built publics chain using each
  have values := mapM_eq got
  have proofs := mapM_eq collected
  obtain ⟨claims, listed⟩ : ∃ claims, claims =
    keys.map fun key => (key, PyObj.bytes (v key), proof key) := ⟨_, rfl⟩
  have paired : keys.zip ((keys.map fun key => PyObj.bytes (v key)).zip (keys.map proof)) =
      claims := by
    have doubled := @List.zip_map' _ _ _ id (fun key => (PyObj.bytes (v key), proof key)) keys
    rw [List.map_id] at doubled
    rw [List.zip_map', doubled, listed]
    rfl
  have input : ∀ c ∈ claims, batchEntry (rootHash (zkScheme worker) t) c.1 c.2.1 c.2.2 =
      .ok (entry c.1) := by
    intro c member
    rw [listed] at member
    obtain ⟨key, held, rfl⟩ := List.mem_map.mp member
    exact built key held
  have batches : (List.range ((keys.length + KEYS_BATCH_SIZE - 1) / KEYS_BATCH_SIZE)).mapM
      (fun idx => (chunkAt claims (idx * KEYS_BATCH_SIZE)).mapM fun c =>
        batchEntry (rootHash (zkScheme worker) t) c.1 c.2.1 c.2.2) =
      .ok ((List.range ((keys.length + KEYS_BATCH_SIZE - 1) / KEYS_BATCH_SIZE)).map fun idx =>
        (chunkAt claims (idx * KEYS_BATCH_SIZE)).map fun c => entry c.1) :=
    mapM_eq fun idx _ => mapM_eq fun c member => input c (chunkAt_subset _ _ member)
  refine ⟨(List.range ((keys.length + KEYS_BATCH_SIZE - 1) / KEYS_BATCH_SIZE)).map fun idx =>
    (chunkAt claims (idx * KEYS_BATCH_SIZE)).map fun c => entry c.1, ?_, fun i key here => ?_⟩
  · simp only [generateBatches, values, proofs, paired, bind, Except.bind]
    exact batches
  · have member := List.mem_of_getElem? here
    have size := (List.getElem?_eq_some_iff.mp here).1
    have turn : i / KEYS_BATCH_SIZE < (keys.length + KEYS_BATCH_SIZE - 1) / KEYS_BATCH_SIZE := by
      simp only [KEYS_BATCH_SIZE]
      omega
    have claim : claims[i]? = Option.some (key, PyObj.bytes (v key), proof key) := by
      rw [listed, List.getElem?_map, here]
      rfl
    refine ⟨v key, (chunkAt claims (i / KEYS_BATCH_SIZE * KEYS_BATCH_SIZE)).map fun c => entry c.1,
      entry key, found key member, ?_, ?_, publics key member, chain key member⟩
    · rw [List.getElem?_map, List.getElem?_range turn]
      rfl
    · rw [List.getElem?_map, chunkAt_get claim]
      rfl

end Batches

/-- In every session each key reads as its last insert that was not lost, and the inputs
    of the circuit for any such keys are hash chains from that value to the root. -/
theorem poseidon_sessions_prove {worker : Worker} {s : List (ZkEntry worker) × MerklePatriciaTrie}
    (session : Session (zkKeeper worker) s) (whole : ∀ e ∈ s.1, e.key.length = 32)
    (nonzero : ∀ e ∈ storedEncodings s.2, ∀ x ∈ callsFor worker e, worker.hash x ≠ 0)
    (distinct : Separates (poseidonHashBytes worker) (storedEncodings s.2)) {keys : List Bytes}
    (known : ∀ key ∈ keys, lastKept s.1 key ≠ none) :
    (∀ key ∈ keys, ∃ v, lastKept s.1 key = some v ∧
      MerkleTrees.get (zkScheme worker) false s.2 key = .ok (.bytes v)) ∧
    ∃ batches, generateBatches worker s.2 keys = .ok batches ∧
      ∀ (i : Nat) key, keys[i]? = some key → ∃ v batch entry, lastKept s.1 key = some v ∧
        batches[i / KEYS_BATCH_SIZE]? = some batch ∧ batch[i % KEYS_BATCH_SIZE]? = some entry ∧
        entry.publics = publicSignals (rootHash (zkScheme worker) s.2) v ∧
        HashChain worker entry := by
  have good := session_good session nonzero distinct
  have kept := keeps_session (kept_keeps (zkCodec worker) false) session good
  have held (key : Bytes) : lookup (trieOf (pathEntries s.1)) (nibbles key) = lastKept s.1 key :=
    kept_lookup s.1 key
  constructor
  · intro key member
    obtain ⟨v, last⟩ := Option.ne_none_iff_exists'.mp (known key member)
    exact ⟨v, last, kept_get kept good last⟩
  by_cases empty : s.1 = []
  · have absent : keys = [] := by
      by_contra some
      obtain ⟨key, member⟩ := List.exists_mem_of_ne_nil keys some
      exact known key member (lastKept_none.mpr empty key)
    subst absent
    exact ⟨[], rfl, by simp⟩
  · have even (k : List Nat) (w : Bytes) (found : lookup (trieOf (pathEntries s.1)) k = some w) :
        k.length = 64 := by
      obtain ⟨e, member, rfl⟩ := kept_member found
      have size := whole e member
      rw [pathKey, nibbles_length]
      simp only [Bool.false_eq_true, if_false, size]
    have shown := kept_some kept empty
    have found : ∀ key ∈ keys, lookup (trieOf (pathEntries s.1)) (nibbles key) ≠ none := by
      intro key member
      rw [held]
      exact known key member
    have made := batches_chain good shown even found
    simp only [held] at made
    exact made

/- Two keys, with a restart between them. -/

def sampleEntry (first : UInt8) (n : Nat) : ZkEntry sampleWorker where
  key := (sampleKey first).bytes
  value := toBytes 32 n
  ok := by
    refine ⟨⟨nibbles_lt _, ?_⟩, ?_⟩
    · change (nibbles (sampleKey first).bytes).length ≤ 64
      rw [nibbles_length, sampleKey, List.length_cons, List.length_replicate]
    · change (toBytes 32 n).length ≤ 96
      rw [toBytes_length]
      decide

@[irreducible] def openedTrie : MerklePatriciaTrie :=
  openTrie ((zkKeeper sampleWorker).insert (sampleEntry 0 7) emptyTrie).disk

@[irreducible] def pairTrie : MerklePatriciaTrie :=
  (zkKeeper sampleWorker).insert (sampleEntry 1 8) openedTrie

theorem pairTrie_session : Session (zkKeeper sampleWorker)
    ([sampleEntry 0 7, sampleEntry 1 8], pairTrie) := by
  have inserted := @Step.insert _ _ (zkKeeper sampleWorker) [] emptyTrie (sampleEntry 0 7)
  have opened : Step (zkKeeper sampleWorker)
      ([sampleEntry 0 7], (zkKeeper sampleWorker).insert (sampleEntry 0 7) emptyTrie)
      ([sampleEntry 0 7], openedTrie) := by
    unfold openedTrie
    exact .reopen [sampleEntry 0 7] rfl
  have last : Step (zkKeeper sampleWorker) ([sampleEntry 0 7], openedTrie)
      ([sampleEntry 0 7, sampleEntry 1 8], pairTrie) := by
    unfold pairTrie
    exact .insert [sampleEntry 0 7] openedTrie (sampleEntry 1 8)
  exact ((Relation.ReflTransGen.single inserted).tail opened).tail last

theorem poseidon_sessions_prove_sample : ∃ batches,
    generateBatches sampleWorker pairTrie [(sampleKey 1).bytes] = .ok batches ∧
      ∀ (i : Nat) key, [(sampleKey 1).bytes][i]? = some key → ∃ v batch entry,
        lastKept [sampleEntry 0 7, sampleEntry 1 8] key = some v ∧
        batches[i / KEYS_BATCH_SIZE]? = some batch ∧ batch[i % KEYS_BATCH_SIZE]? = some entry ∧
        entry.publics = publicSignals (rootHash (zkScheme sampleWorker) pairTrie) v ∧
        HashChain sampleWorker entry := by
  have distinct : Separates (poseidonHashBytes sampleWorker) (storedEncodings pairTrie) := by
    decide +kernel
  exact (poseidon_sessions_prove pairTrie_session (by decide)
    (fun _ _ _ _ => Nat.succ_ne_zero _) distinct (by decide)).2

end PoseidonSessions
