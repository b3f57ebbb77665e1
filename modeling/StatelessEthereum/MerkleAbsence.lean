import StatelessEthereum.MerkleRuns

/- What `get` does with a key that was never inserted. The walk of `_get` stops
   at the first node below an exhausted path, whether or not that node is the
   key's own, so a missing key is reported as missing only where no such node
   carries data. -/
namespace MerkleAbsence
open PythonError BigEndian NibblePaths MerkleNodes MerkleForms StateEffect PutLog DiskLog CompactTrie
open TrieWalk
open MerkleTrees hiding insert get
open MerkleStorage MerkleRefinement MerkleRuns
variable {scheme : Scheme} {limits : Limits} {codec : Codec scheme limits}

def Inserted (run : Run) (path : List Nat) : Prop := ∃ e ∈ run, nibbles e.1.bytes = path

theorem keysOf_trieOf (run : Run) : keysOf (trieOf run.plain) = Inserted run := by
  funext path
  apply propext
  by_cases whole : ∃ key, path = nibbles key
  · obtain ⟨key, rfl⟩ := whole
    rw [keysOf, trieOf_lookup]
    constructor
    · intro some
      obtain ⟨v, last⟩ := Option.ne_none_iff_exists'.mp some
      obtain ⟨e, member, rfl⟩ := member_of_lastInserted last
      exact ⟨e, member, rfl⟩
    · rintro ⟨e, member, same⟩
      obtain ⟨v, last⟩ := lastInserted_of_member member
      rw [nibbles_injective same] at last
      simp [last]
  · rw [keysOf, trieOf_absent run whole]
    constructor
    · intro some
      exact absurd rfl some
    · rintro ⟨e, _, rfl⟩
      exact absurd ⟨_, rfl⟩ whole

theorem nodeData_raises_iff {node : Node} {u : NibbleTrie} (shows : Shows node (formOf codec u))
    (occupied : u ≠ .empty) (message : String) :
    (∃ text, nodeData message node = .error (.keyError text)) ↔ ¬ Answers u := by
  cases u <;> cases node <;> simp only [formOf, Shows] at shows
  · exact absurd rfl occupied
  · rw [nodeData.eq_def, shows.2.2]
    simp [Answers]
  · simp [nodeData, Answers]
  · rw [nodeData.eq_def, shows.2]
    simp [Answers]

/-- `get` raises a `KeyError` where the walk ends without an answer. -/
theorem get_raises_iff {t : NibbleTrie} {s : MerklePatriciaTrie} (shown : Represents codec t s)
    (good : Good limits s) (key : Bytes) :
    (∃ message, MerkleTrees.get scheme false s key = .error (.keyError message)) ↔
      ¬ Ends t (nibbles key) := by
  by_cases occupied : t = .empty
  · have root : s.rootRef = none := by rw [shown.rootRef, occupied]; rfl
    have open' : ¬ Ends t (nibbles key) := by
      rw [occupied]
      exact (empty_ends _).1
    exact iff_of_true ⟨"Empty trie", by simp only [MerkleTrees.get, root]⟩ open'
  · obtain ⟨path, parsed, wide, digits⟩ := keyPath_plain scheme key
    have root := shown.rootRef.trans (rootOf_occupied codec occupied)
    have walked := getFrom_walk good shown.valid occupied shown.written (path.len + 1) path wide
      (Nat.lt_succ_self _)
    rw [digits] at walked
    cases ended : walk t (nibbles key) with
    | none =>
      rw [ended] at walked
      obtain ⟨message, raised⟩ := walked
      refine iff_of_true ⟨message, ?_⟩ ?_
      · simp only [MerkleTrees.get, root, parsed, raised, bind, Except.bind]
      · rintro ⟨u, found, _⟩
        rw [ended] at found
        cases found
    | some u =>
      rw [ended] at walked
      obtain ⟨node, read, shows⟩ := walked
      have answer : Ends t (nibbles key) ↔ Answers u := by simp [Ends, ended]
      rw [answer, ← nodeData_raises_iff shows (walk_occupied ended)
        "Key not found (no data at terminal node)"]
      simp only [MerkleTrees.get, root, parsed, read, bind, Except.bind]

section KeccakTrie
variable (keccak : Keccak)

/-- A key that was never inserted is reported as missing exactly when its path
    does not stray into the nodes of other keys. -/
theorem absent_raises_iff (run : Run) (long : ∀ e ∈ run, 32 ≤ e.2.bytes.length)
    (distinct : Separates keccak.hash
      (storedEncodings (insertRun (keccakScheme keccak.hash) run).2))
    (key : Bytes) (fresh : ∀ e ∈ run, e.1.bytes ≠ key) :
    (∃ message, MerkleTrees.get (keccakScheme keccak.hash) false
      (insertRun (keccakScheme keccak.hash) run).2 key = .error (.keyError message)) ↔
        ¬ Strays (Inserted run) (nibbles key) := by
  obtain ⟨_, shown⟩ := keccak_run keccak long distinct
  have missing : ¬ Inserted run (nibbles key) := by
    rintro ⟨e, member, same⟩
    exact fresh e member (nibbles_injective same)
  rw [get_raises_iff shown (good_run keccak distinct), ends_iff shown.valid.canonical,
    keysOf_trieOf]
  simp only [missing, false_or]

end KeccakTrie

/- Two keys that share their first digit: the one byte that leads to the leaf of
   the first was never inserted. -/

def strayBranch : Form :=
  .branch (((List.replicate 16 []).set 2
    (toBytes 32 0xd60a1578a98a824a30fde6fbd093923d0d2ed56d05eabc4e85c96031c0b0b6de)).set 3
    (toBytes 32 0x919e1d9e8e4fa23ac4fc255c61bafd8bca5952beb1f5348bee18ecef80352af2)) []

/-- The keccak-256 digests of the encodings that the run stores. -/
def strayDigests : List (Bytes × Nat) :=
  [(.leaf [1, 2, 3, 4] (sampleBytes 98),
      0x23d465158da184800b2c488ef8c7b5d434fb748ccd910a074cf877f6969d232),
    (.leaf [3, 4] (sampleBytes 98),
      0xd60a1578a98a824a30fde6fbd093923d0d2ed56d05eabc4e85c96031c0b0b6de),
    (.leaf [3, 4] (sampleBytes 97),
      0x919e1d9e8e4fa23ac4fc255c61bafd8bca5952beb1f5348bee18ecef80352af2),
    (strayBranch, 0x4f6396229e7f8688f3635ec8c53c77217e4f6489dff6fd68c838794fb51b06d0),
    (.ext [1] (toBytes 32 0x4f6396229e7f8688f3635ec8c53c77217e4f6489dff6fd68c838794fb51b06d0),
      0x9ab0b2812eb596c333d7054abbcd5d897511dfd75332368d44fd1728e5cb9a95)].map
    fun e => ((nodeItem e.1).encode, e.2)

def strayKeccak : Keccak where
  hash b := toBytes 32 ((strayDigests.lookup b).getD 0)
  size _ := toBytes_length 32 _

def twinKey (first : UInt8) : ByteString where
  bytes := [first, 0x34]
  fits := by
    rw [List.length_cons, List.length_singleton]
    decide

def strayRun : Run := [(twinKey 0x12, sampleString 98), (twinKey 0x13, sampleString 97)]

theorem absent_raises_sample :
    (∃ message, MerkleTrees.get (keccakScheme strayKeccak.hash) false
      (insertRun (keccakScheme strayKeccak.hash) strayRun).2 [0x12] = .error (.keyError message)) ↔
        ¬ Strays (Inserted strayRun) (nibbles [0x12]) :=
  absent_raises_iff strayKeccak strayRun (by decide) (by decide +kernel) [0x12] (by decide)

theorem read_bytes {x : Except PyError PyObj} {b : Bytes}
    (answer : (x.toOption.any fun o => o.isBytes b) = true) : x = .ok (.bytes b) := by
  cases x with
  | error e => simp [Except.toOption] at answer
  | ok o => cases o <;> simp_all [Except.toOption, PyObj.isBytes]

theorem absent_answered :
    (∀ e ∈ strayRun, 32 ≤ e.2.bytes.length) ∧ (∀ e ∈ strayRun, e.1.bytes ≠ [0x12]) ∧
      Separates strayKeccak.hash
        (storedEncodings (insertRun (keccakScheme strayKeccak.hash) strayRun).2) ∧
      MerkleTrees.get (keccakScheme strayKeccak.hash) false
        (insertRun (keccakScheme strayKeccak.hash) strayRun).2 [0x12] =
          .ok (.bytes (sampleBytes 98)) :=
  ⟨by decide, by decide, by decide +kernel, read_bytes (by decide +kernel)⟩

end MerkleAbsence
