import StatelessEthereum.PoseidonTrie
import StatelessEthereum.ZkEncoding

/- The Merkle trie with hash_fn = "poseidon": nodes in the chunked format, filed
   under a sponge over their chunks modulo the field prime (merkle/hash.py). The
   worker that hashes a batch is a parameter. -/
namespace PoseidonMode
open PythonError BigEndian MerkleNodes MerkleForms StateEffect PutLog DiskLog CompactTrie ZkEncoding
open NibblePaths hiding ofBytes
open MerkleTrees hiding insert get
open MerkleStorage MerkleRuns
open PoseidonTrie (FIELD_MOD sampleKey sampleValue partedRun forkedRun)

def BATCH_SIZE : Nat := 4

/-- The circomlib process: a batch of field elements is hashed to one. -/
structure Worker where
  hash : List Nat → Nat
  below : ∀ batch, hash batch < FIELD_MOD

/-- Zeros up to whole chunks of 32 bytes. -/
def padded (data : Bytes) : Bytes :=
  if data.length % 32 ≠ 0 then data ++ List.replicate (32 - data.length % 32) 0 else data

def fieldElements (data : Bytes) : List Nat :=
  (List.range ((padded data).length / 32)).map fun i =>
    ofBytes (slice (padded data) (i * 32) (i * 32 + 32)) % FIELD_MOD

/-- `field_elements[i:i+BATCH_SIZE]`, filled up with zeros. -/
def batchAt (elements : List Nat) (i : Nat) : List Nat :=
  let batch := (elements.drop i).take BATCH_SIZE
  batch ++ List.replicate (BATCH_SIZE - batch.length) 0

def batches (elements : List Nat) : List (List Nat) :=
  (List.range ((elements.length + BATCH_SIZE - 1) / BATCH_SIZE)).map fun i =>
    batchAt elements (i * BATCH_SIZE)

/-- `batch[0] = (current_hash + batch[0]) % FIELD_MOD` -/
def mixed (currentHash : Nat) (batch : List Nat) : List Nat :=
  batch.set 0 ((currentHash + batch.getD 0 0) % FIELD_MOD)

section Hash
variable (worker : Worker)

def absorb (currentHash : Nat) (bs : List (List Nat)) : Nat :=
  bs.foldl (fun currentHash batch => worker.hash (mixed currentHash batch)) currentHash

def poseidonHashBytes (data : Bytes) : Bytes :=
  toBytes 32 (absorb worker 0 (batches (fieldElements data)))

/-- `hash_fn = "poseidon"`. -/
def zkScheme : Scheme where
  hash := poseidonHashBytes worker
  encode := zkEncode
  reference node := do
    let encoded ← zkEncode node
    .ok (poseidonHashBytes worker encoded)
  decode := zkDecode

def calls : Nat → List (List Nat) → List (List Nat)
  | _, [] => []
  | currentHash, batch :: rest =>
    mixed currentHash batch :: calls (worker.hash (mixed currentHash batch)) rest

def callsFor (data : Bytes) : List (List Nat) := calls worker 0 (batches (fieldElements data))

def lastBatch (data : Bytes) : Option (List Nat) := (callsFor worker data).getLast?

end Hash

/- The reference is the hash of the last batch. -/
section Sponge
variable {worker : Worker}

theorem calls_length (currentHash : Nat) (bs : List (List Nat)) :
    (calls worker currentHash bs).length = bs.length := by
  induction bs generalizing currentHash with
  | nil => rfl
  | cons batch bs ih => rw [calls, List.length_cons, List.length_cons, ih]

theorem absorb_last {currentHash : Nat} {bs : List (List Nat)} {last : List Nat}
    (final : (calls worker currentHash bs).getLast? = some last) :
    absorb worker currentHash bs = worker.hash last := by
  induction bs generalizing currentHash with
  | nil => simp [calls] at final
  | cons batch bs ih =>
    rw [calls] at final
    cases bs with
    | nil =>
      cases final
      rfl
    | cons next bs =>
      rw [calls, List.getLast?_cons_cons, ← calls] at final
      exact ih final

variable (worker) in
theorem lastBatch_some {data : Bytes} (some : data ≠ []) :
    ∃ last, lastBatch worker data = Option.some last ∧ last ∈ callsFor worker data ∧
      absorb worker 0 (batches (fieldElements data)) = worker.hash last := by
  have chunks : 0 < (padded data).length / 32 := by
    have positive := List.length_pos_of_ne_nil some
    rw [padded]
    split
    · rw [List.length_append, List.length_replicate]
      omega
    · omega
  have nonempty : callsFor worker data ≠ [] := by
    apply List.ne_nil_of_length_pos
    simp only [callsFor, calls_length, batches, List.length_map, List.length_range, fieldElements,
      BATCH_SIZE]
    omega
  have final := List.getLast?_eq_some_getLast nonempty
  exact ⟨_, final, List.getLast_mem nonempty, absorb_last final⟩

/-- The worker gives equal results to equal batches only, and none is zero. -/
structure Distinguishes (worker : Worker) (batches : List (List Nat)) : Prop where
  distinct : ∀ x ∈ batches, ∀ y ∈ batches, worker.hash x = worker.hash y → x = y
  nonzero : ∀ x ∈ batches, worker.hash x ≠ 0

instance (worker : Worker) (batches : List (List Nat)) :
    Decidable (Distinguishes worker batches) :=
  decidable_of_iff ((∀ x ∈ batches, ∀ y ∈ batches, worker.hash x = worker.hash y → x = y) ∧
    ∀ x ∈ batches, worker.hash x ≠ 0) ⟨fun h => ⟨h.1, h.2⟩, fun h => ⟨h.distinct, h.nonzero⟩⟩

/-- The sponges of different encodings end in different batches. -/
def EndApart (worker : Worker) (encodings : List Bytes) : Prop :=
  ∀ a ∈ encodings, ∀ b ∈ encodings, lastBatch worker a = lastBatch worker b → a = b

instance (worker : Worker) (encodings : List Bytes) : Decidable (EndApart worker encodings) :=
  inferInstanceAs (Decidable (∀ a ∈ encodings, ∀ b ∈ encodings,
    lastBatch worker a = lastBatch worker b → a = b))

theorem hash_small (batch : List Nat) : worker.hash batch < 256 ^ 32 :=
  Nat.lt_trans (worker.below batch) (by decide)

theorem sponge_separates {encodings : List Bytes} (some : ∀ e ∈ encodings, e ≠ [])
    (distinct : Distinguishes worker (encodings.flatMap (callsFor worker)))
    (apart : EndApart worker encodings) : Separates (poseidonHashBytes worker) encodings := by
  intro a ha b hb same
  obtain ⟨x, last, called, hashed⟩ := lastBatch_some worker (some a ha)
  obtain ⟨y, last', called', hashed'⟩ := lastBatch_some worker (some b hb)
  rw [poseidonHashBytes, poseidonHashBytes, hashed, hashed'] at same
  have batch := distinct.distinct x (List.mem_flatMap.mpr ⟨a, ha, called⟩) y
    (List.mem_flatMap.mpr ⟨b, hb, called'⟩) (toBytes_injective (hash_small x) (hash_small y) same)
  exact apart a ha b hb (by rw [last, last', batch])

/-- A reference of the width of a chunk that is not taken for an empty slot. -/
theorem sponge_reference {e : Bytes} (some : e ≠ [])
    (nonzero : ∀ x ∈ callsFor worker e, worker.hash x ≠ 0) :
    zkLimits.RefOk (poseidonHashBytes worker e) := by
  obtain ⟨x, _, called, hashed⟩ := lastBatch_some worker some
  refine ⟨toBytes_length _ _, fun zeros => ?_⟩
  have zero : toBytes 32 0 = ZEROS := by decide
  rw [poseidonHashBytes, hashed, ← zero] at zeros
  exact nonzero x called (toBytes_injective (hash_small x) (by decide) zeros)

end Sponge

/- The trie over this format. -/
section Trie
variable (worker : Worker)

def zkCodec : Codec (zkScheme worker) zkLimits where
  layout := layout
  hash_size _ := toBytes_length _ _
  addressed node reference encoded referred written _ := by
    change zkEncode node = .ok encoded at written
    simpa [zkScheme, written, bind, Except.bind] using referred.symm
  stores node form shows valid := by
    have encoded := node_zkEncode shows
    exact ⟨encoded, by simp [zkScheme, encoded, bind, Except.bind]⟩
  loads _ valid := node_zkDecode (storable_codable valid)

theorem zkEncode_some {node : Node} {encoded : Bytes} (written : zkEncode node = .ok encoded) :
    encoded ≠ [] := by
  have front (n : Nat) (rest : Bytes) : toBytes 32 n ++ rest ≠ [] := by
    intro none
    have size := congrArg List.length none
    simp at size
  cases node with
  | leaf path data =>
    obtain ⟨pathBytes, _, rest⟩ := ok_of_bind written
    obtain ⟨safeData, _, rest⟩ := ok_of_bind rest
    cases rest
    simp only [List.append_assoc]
    exact front 1 _
  | extension path nextRef =>
    obtain ⟨pathBytes, _, rest⟩ := ok_of_bind written
    obtain ⟨nextRef, _, rest⟩ := ok_of_bind rest
    cases rest
    simp only [List.append_assoc]
    exact front 2 _
  | branch branches data =>
    obtain ⟨slots, _, rest⟩ := ok_of_bind written
    obtain ⟨safeData, _, rest⟩ := ok_of_bind rest
    cases rest
    simp only [List.append_assoc]
    exact front 3 _

/-- No empty encoding is put on disk. -/
def Nonempty (s t : MerklePatriciaTrie) : Prop :=
  (∀ p ∈ s.disk.db.puts, p.2 ≠ []) → ∀ p ∈ t.disk.db.puts, p.2 ≠ []

theorem nonempty_refl (s : MerklePatriciaTrie) : Nonempty s s := id

theorem nonempty_trans (s t u : MerklePatriciaTrie) (first : Nonempty s t) (next : Nonempty t u) :
    Nonempty s u := next ∘ first

theorem storeNode_nonempty (node : Node) : Along Nonempty (storeNode (zkScheme worker) node) := by
  refine storeNode_moves nonempty_refl (fun node r e _ encoded _ s before p member => ?_) node
  rcases List.mem_cons.mp member with rfl | older
  · exact zkEncode_some encoded
  · exact before p older

theorem same_db_nonempty {f : MerklePatriciaTrie → MerklePatriciaTrie}
    (same : ∀ s, (f s).disk.db = s.disk.db) : Along Nonempty (modify f : TrieEffect Unit) := by
  intro s
  simp only [modify_run]
  intro before
  rwa [same]

theorem insert_nonempty (key value : Bytes) :
    Along Nonempty (MerkleTrees.insert (zkScheme worker) false key value) := by
  have refl := nonempty_refl
  have trans := nonempty_trans
  unfold MerkleTrees.insert
  refine along_bind trans (along_lift refl _) fun path => ?_
  refine along_bind trans (along_reads refl _) fun root => ?_
  refine along_bind trans (along_update refl trans (storeNode_nonempty worker) _ _ _ _) fun r => ?_
  refine along_bind trans (same_db_nonempty fun _ => rfl) fun _ => ?_
  refine along_bind trans (same_db_nonempty fun _ => rfl) fun _ => ?_
  exact along_bind trans (same_db_nonempty fun _ => rfl) fun _ => same_db_nonempty fun _ => rfl

theorem stored_some (run : Run) :
    ∀ e ∈ storedEncodings (insertRun (zkScheme worker) run).2, e ≠ [] := by
  have moves (e : Bytes × Bytes) :
      Along Nonempty (MerkleTrees.insert (zkScheme worker) false e.1 e.2) :=
    insert_nonempty worker e.1 e.2
  have kept := along_forEach nonempty_refl nonempty_trans moves run.plain emptyTrie
    (by simp [emptyTrie, openTrie, Disk.db])
  intro e member
  obtain ⟨p, stored, rfl⟩ := List.mem_map.mp member
  exact kept p stored

theorem addressed_run (run : Run) : ∀ p ∈ (insertRun (zkScheme worker) run).2.disk.db.puts,
    p.1 = poseidonHashBytes worker p.2 := by
  have moves (e : Bytes × Bytes) :
      Along (Grows (zkScheme worker)) (MerkleTrees.insert _ false e.1 e.2) :=
    insert_grows (zkCodec worker) false e.1 e.2
  have moved := along_forEach (grows_refl _) (grows_trans _) moves run.plain emptyTrie
  exact moved.addressed (by simp [emptyTrie, openTrie, Disk.db])

theorem zk_good (run : Run) (nonzero : ∀ e ∈ storedEncodings (insertRun (zkScheme worker) run).2,
      ∀ x ∈ callsFor worker e, worker.hash x ≠ 0)
    (distinct : Separates (poseidonHashBytes worker)
      (storedEncodings (insertRun (zkScheme worker) run).2)) :
    Good zkLimits (insertRun (zkScheme worker) run).2 := by
  have addressed := addressed_run worker run
  constructor
  · exact consistent_of_digest (poseidonHashBytes worker) addressed distinct
  · intro p member
    have stored : p.2 ∈ storedEncodings (insertRun (zkScheme worker) run).2 :=
      List.mem_map_of_mem member
    rw [addressed p member]
    exact sponge_reference (stored_some worker run p.2 stored) (nonzero p.2 stored)

/-- The whole of a run: it returns normally and its trie is on disk. -/
theorem zk_run {run : Run}
    (entries : ∀ e ∈ run, e.1.bytes.length = 32 ∧ e.2.bytes.length ≤ 96)
    (good : Good zkLimits (insertRun (zkScheme worker) run).2) :
    (insertRun (zkScheme worker) run).1 = .ok () ∧
      Represents (zkCodec worker) (trieOf run.plain) (insertRun (zkScheme worker) run).2 := by
  refine run_represents (zkCodec worker) run.plain ?_ good
  intro e member
  obtain ⟨entry, inside, rfl⟩ := List.mem_map.mp member
  obtain ⟨keySize, valueSize⟩ := entries entry inside
  refine ⟨⟨nibbles_lt _, ?_⟩, valueSize⟩
  rw [nibbles_length, keySize]

end Trie

/-- The trie is a map over every run whose sponges end apart. -/
theorem poseidon_mode_map (worker : Worker) (run : Run)
    (entries : ∀ e ∈ run, e.1.bytes.length = 32 ∧ e.2.bytes.length ≤ 96)
    (distinct : Distinguishes worker
      ((storedEncodings (insertRun (zkScheme worker) run).2).flatMap (callsFor worker)))
    (apart : EndApart worker (storedEncodings (insertRun (zkScheme worker) run).2)) :
    (insertRun (zkScheme worker) run).1 = .ok () ∧
    ∀ e ∈ run, ∃ v, lastInserted run e.1.bytes = some v ∧
      MerkleTrees.get (zkScheme worker) false (insertRun (zkScheme worker) run).2 e.1.bytes =
        .ok (.bytes v) := by
  have some := stored_some worker run
  have good := zk_good worker run
    (fun e stored x called => distinct.nonzero x (List.mem_flatMap.mpr ⟨e, stored, called⟩))
    (sponge_separates some distinct apart)
  obtain ⟨fine, shown⟩ := zk_run worker entries good
  refine ⟨fine, fun e member => ?_⟩
  obtain ⟨v, last⟩ := lastInserted_of_member member
  exact ⟨v, last, get_lookup shown good ((trieOf_lookup run _).trans last)⟩

/- Two values that differ by the prime. -/

def sampleWorker : Worker where
  hash batch := batch.foldl (fun acc x => acc * 1000003 + x + 1) 7 % (FIELD_MOD - 1) + 1
  below batch := by
    have small := Nat.mod_lt (batch.foldl (fun acc x => acc * 1000003 + x + 1) 7)
      (show 0 < FIELD_MOD - 1 by decide)
    omega

theorem poseidon_mode_map_sample :
    (insertRun (zkScheme sampleWorker) partedRun).1 = .ok () ∧
    ∀ e ∈ partedRun, ∃ v, lastInserted partedRun e.1.bytes = some v ∧
      MerkleTrees.get (zkScheme sampleWorker) false
        (insertRun (zkScheme sampleWorker) partedRun).2 e.1.bytes = .ok (.bytes v) :=
  poseidon_mode_map sampleWorker partedRun (by decide) (by decide +kernel) (by decide +kernel)

/-- The leaf of the first key is filed over that of the second. -/
theorem poseidon_mode_not_map :
    (∀ e ∈ forkedRun, e.1.bytes.length = 32 ∧ e.2.bytes.length = 32) ∧
    Distinguishes sampleWorker ((storedEncodings
      (insertRun (zkScheme sampleWorker) forkedRun).2).flatMap (callsFor sampleWorker)) ∧
    (insertRun (zkScheme sampleWorker) forkedRun).1 = .ok () ∧
    lastInserted forkedRun (sampleKey 0x10).bytes = some (sampleValue (7 + FIELD_MOD)).bytes ∧
    (sampleValue 7).bytes ≠ (sampleValue (7 + FIELD_MOD)).bytes ∧
    ((MerkleTrees.get (zkScheme sampleWorker) false
      (insertRun (zkScheme sampleWorker) forkedRun).2 (sampleKey 0x10).bytes).toOption.map
        fun data => data.isBytes (sampleValue 7).bytes) = some true := by
  decide +kernel

end PoseidonMode
