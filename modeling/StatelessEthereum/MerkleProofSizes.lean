import StatelessEthereum.MerkleSessions
import StatelessEthereum.TrieDepth

/- How many nodes the proof of a key has: it depends on nothing but the depths at which
   the paths of other inserted keys leave its own. -/
namespace MerkleProofSizes
open PythonError BigEndian NibblePaths MerkleNodes MerkleForms CompactTrie TrieWalk TrieDepth
open DiskSessions MerkleSessions
open MerkleTrees hiding insert get
open MerkleStorage MerkleRefinement MerkleRuns MerkleCollect
variable {scheme : Scheme} {limits : Limits} {codec : Codec scheme limits} {secure : Bool}

/-- The digits that a key shares with each of the other inserted keys. -/
def forkDepths (run : List (Entry scheme limits secure)) (key : Bytes) : List Nat :=
  ((run.map fun e => nibbles (pathKey scheme secure e.key)).filter
    fun k' => k' ≠ nibbles (pathKey scheme secure key)).map
      fun k' => (common (nibbles (pathKey scheme secure key)) k').length

theorem formsAlong_length (t : NibbleTrie) (k : List Nat) :
    (formsAlong codec t k).length = trail t k := by
  induction t generalizing k with
  | empty => rfl
  | leaf p v => rfl
  | ext p t ih => rw [formsAlong, trail, List.length_cons, ih]
  | branch cs w ih =>
    cases k with
    | nil => rfl
    | cons i k => rw [formsAlong, trail, List.length_cons, ih]

theorem keys_kept (run : List (Entry scheme limits secure)) (k : List Nat) :
    keysOf (trieOf (pathEntries run)) k ↔
      k ∈ run.map fun e => nibbles (pathKey scheme secure e.key) := by
  constructor
  · intro key
    obtain ⟨v, found⟩ := Option.ne_none_iff_exists'.mp key
    obtain ⟨e, member, rfl⟩ := kept_member found
    exact List.mem_map_of_mem member
  · intro listed
    obtain ⟨e, member, rfl⟩ := List.mem_map.mp listed
    rw [keysOf, kept_lookup, lastKept]
    intro none
    rw [Option.map_eq_none_iff, List.find?_eq_none] at none
    exact none e (List.mem_reverse.mpr member) (beq_self_eq_true _)

theorem forkDepths_exact (run : List (Entry scheme limits secure)) (key : Bytes) (n : Nat) :
    n ∈ forkDepths run key ↔
      Forks (keysOf (trieOf (pathEntries run))) (nibbles (pathKey scheme secure key)) n := by
  rw [forkDepths, List.mem_map]
  constructor
  · rintro ⟨k', member, rfl⟩
    obtain ⟨listed, other⟩ := List.mem_filter.mp member
    exact ⟨k', (keys_kept run k').mpr listed, by simpa using other, rfl⟩
  · rintro ⟨k', there, other, rfl⟩
    exact ⟨k', List.mem_filter.mpr ⟨(keys_kept run k').mp there, by simpa using other⟩, rfl⟩

section Keccak
variable (keccak : Keccak)
  {s : List (Entry (keccakScheme keccak.hash) keccakLimits secure) × MerklePatriciaTrie}

/-- The proof of a key of any session: a branch for each depth at which other keys leave
    its path, an extension for each gap before one, and a leaf. -/
theorem proof_nodes (session : Session (trieKeeper (keccakCodec keccak) secure) s)
    (distinct : Separates keccak.hash (storedEncodings s.2)) {key v : Bytes}
    (last : lastKept s.1 key = some v) : ∃ nodes,
      getProofTree (keccakScheme keccak.hash) secure s.2 key = .ok nodes ∧
      nodes.length = spread (fun n => n ∈ forkDepths s.1 key)
        (nibbles (pathKey (keccakScheme keccak.hash) secure key)).length := by
  have some : s.1 ≠ [] := by
    intro none
    rw [none] at last
    cases last
  have shown := kept_some (session_kept keccak session distinct) some
  have found := (kept_lookup s.1 key).trans last
  have there : keysOf (trieOf (pathEntries s.1))
      (nibbles (pathKey (keccakScheme keccak.hash) secure key)) := by
    rw [keysOf, found]
    exact Option.some_ne_none _
  refine ⟨_, getProofTree_forms (session_good keccak session distinct) shown found, ?_⟩
  rw [List.length_map, formsAlong_length]
  exact trail_spread shown.valid.canonical there _ (forkDepths_exact s.1 key)

end Keccak

/-- Two keys that share their first digit: an extension, a branch and a leaf. -/
theorem proof_nodes_sample : ∃ nodes,
    getProofTree (keccakScheme spreadKeccak.hash) false secondTrie (sampleBytes 107) = .ok nodes ∧
      nodes.length = 3 := by
  have last : lastKept [firstEntry, secondEntry] (sampleBytes 107) = some (sampleBytes 97) := by
    decide
  have size : spread (fun n => n ∈ forkDepths [firstEntry, secondEntry] (sampleBytes 107))
      (nibbles (pathKey (keccakScheme spreadKeccak.hash) false (sampleBytes 107))).length = 3 := by
    decide
  obtain ⟨nodes, made, length⟩ := proof_nodes spreadKeccak (firstTrie_session.trans secondTrie_step)
    haltedDisk_facts.2.2 last
  exact ⟨nodes, made, length.trans size⟩

end MerkleProofSizes
