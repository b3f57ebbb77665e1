import StatelessEthereum.SnarkChain

/- The shape of the SNARK prover's batch inputs against that of the circuit. -/
namespace SnarkShape
open PythonError BigEndian NibblePaths MerkleNodes ZkEncoding PoseidonMode SnarkWitness SnarkChain
open MerkleTrees (MerklePatriciaTrie getProofTree rootHash)
open MerkleRuns (Run insertRun)
open PoseidonTrie (sampleValue)

structure EntryShape (entry : Entry) : Prop where
  types : entry.nodeTypes.length = MAX_DEPTH
  digits : entry.nodeNibbles.length = MAX_DEPTH
  counts : entry.nodeBatches.length = MAX_DEPTH
  leaf : entry.leafChunks.length = MAX_CHUNKS
  rows : ∀ row ∈ entry.nodeChunks, row.length = MAX_CHUNKS

def slotItem {α : Type} (items : List α) (j : Nat) : Option α :=
  if j < items.length then items[j]? else items.getLast?

/-- A column of a key, from what the trie answers for it. -/
def EntryOf (worker : Worker) (tree : MerklePatriciaTrie) (key : Bytes) (entry : Entry) : Prop :=
  ∃ value proof, MerkleTrees.get (zkScheme worker) false tree key = .ok value ∧
    getProofTree (zkScheme worker) false tree key = .ok proof ∧
      batchEntry (rootHash (zkScheme worker) tree) key value proof = .ok entry

structure CircuitShape (worker : Worker) (tree : MerklePatriciaTrie) (keys : List Bytes)
    (batches : List (List Entry)) : Prop where
  count : batches.length = (keys.length + 15) / 16
  full : ∀ batch ∈ batches, batch.length = KEYS_BATCH_SIZE
  slots : ∀ (b : Nat) batch, batches[b]? = some batch → ∀ (i : Nat) entry, batch[i]? = some entry →
    ∃ key, slotItem keys (b * KEYS_BATCH_SIZE + i) = some key ∧ EntryOf worker tree key entry
  arrays : ∀ batch ∈ batches, ∀ entry ∈ batch, EntryShape entry

/- One column. -/

theorem getNodeData_length {node : Node} {chunks : List Nat} {count : Nat}
    (made : getNodeData node = .ok (chunks, count)) : chunks.length = MAX_CHUNKS := by
  unfold getNodeData at made
  obtain ⟨enc, _, made⟩ := ok_of_bind made
  simp only at made
  split at made
  · cases made
  · rename_i fits
    cases made
    rw [List.length_append, List.length_replicate] at fits ⊢
    omega

theorem parentRow_length {pathObj : NibblePath} {parent : Node} {d : Nat} {row : ParentRow}
    (made : parentRow pathObj parent d = .ok row) : row.chunks.length = MAX_CHUNKS := by
  unfold parentRow at made
  obtain ⟨⟨chunks, count⟩, data, made⟩ := ok_of_bind made
  have length := getNodeData_length data
  cases parent with
  | branch =>
    obtain ⟨nibble, _, made⟩ := ok_of_bind made
    cases made
    exact length
  | leaf =>
    cases made
    exact length
  | extension =>
    cases made
    exact length

theorem parentRows_each {pathObj : NibblePath} {parents : List Node} {rows : List ParentRow}
    (made : parentRows pathObj parents = .ok rows) :
    rows.length = parents.length ∧ ∀ row ∈ rows, row.chunks.length = MAX_CHUNKS := by
  have each := mapM_inv made
  constructor
  · rw [← each.length_eq, List.length_reverse, List.length_zip, depthsFrom_length, Nat.min_self]
  · intro row member
    obtain ⟨i, inside, rfl⟩ := List.mem_iff_getElem.mp member
    exact parentRow_length ((List.forall₂_iff_get.mp each).2 i (each.length_eq ▸ inside) inside)

/-- The padding is none where the parents are more than the circuit's depth. -/
theorem batchEntry_lengths {root key : Bytes} {value : PyObj} {proof : List Bytes} {entry : Entry}
    (built : batchEntry root key value proof = .ok entry) :
    entry.nodeTypes.length = max MAX_DEPTH (proof.length - 1) ∧
    entry.nodeNibbles.length = max MAX_DEPTH (proof.length - 1) ∧
    entry.nodeBatches.length = max MAX_DEPTH (proof.length - 1) ∧
    entry.leafChunks.length = MAX_CHUNKS ∧ ∀ row ∈ entry.nodeChunks, row.length = MAX_CHUNKS := by
  unfold batchEntry at built
  obtain ⟨v, _, built⟩ := ok_of_bind built
  obtain ⟨nodes, decoded, built⟩ := ok_of_bind built
  obtain ⟨pathObj, _, built⟩ := ok_of_bind built
  obtain ⟨⟨parents, leaf⟩, parted, built⟩ := ok_of_bind built
  obtain ⟨⟨chunks, count⟩, data, built⟩ := ok_of_bind built
  obtain ⟨rows, made, built⟩ := ok_of_bind built
  cases built
  obtain ⟨length, each⟩ := parentRows_each made
  have parent : parents.length = proof.length - 1 := by
    unfold splitLast at parted
    split at parted
    · cases parted
      rw [List.length_dropLast, (mapM_inv decoded).length_eq]
    · cases parted
  have filled (α : Type) (xs : List α) (x : α) (same : xs.length = rows.length) :
      (xs ++ List.replicate (MAX_DEPTH - parents.length) x).length =
        max MAX_DEPTH (proof.length - 1) := by
    rw [List.length_append, List.length_replicate, same, length, parent]
    omega
  refine ⟨filled _ _ _ (List.length_map ..), filled _ _ _ (List.length_map ..),
    filled _ _ _ (List.length_map ..), getNodeData_length data, ?_⟩
  intro row member
  rcases List.mem_append.mp member with real | padding
  · obtain ⟨parentRow, present, rfl⟩ := List.mem_map.mp real
    exact each parentRow present
  · rw [List.eq_of_mem_replicate padding, List.length_replicate]

theorem entryShape_iff {root key : Bytes} {value : PyObj} {proof : List Bytes} {entry : Entry}
    (built : batchEntry root key value proof = .ok entry) :
    EntryShape entry ↔ proof.length ≤ MAX_DEPTH + 1 := by
  obtain ⟨types, digits, counts, leaf, rows⟩ := batchEntry_lengths built
  constructor
  · intro shape
    have exact := types.symm.trans shape.types
    omega
  · intro short
    have exact : max MAX_DEPTH (proof.length - 1) = MAX_DEPTH := Nat.max_eq_left (by omega)
    exact ⟨types.trans exact, digits.trans exact, counts.trans exact, leaf, rows⟩

/- Whole batches. -/

/-- A slice is filled up with its last item, the last of all in the last slice. -/
theorem chunkAt_slots {α : Type} {items : List α} {b : Nat}
    (inside : b * KEYS_BATCH_SIZE < items.length) :
    (chunkAt items (b * KEYS_BATCH_SIZE)).length = KEYS_BATCH_SIZE ∧ ∀ i < KEYS_BATCH_SIZE,
      (chunkAt items (b * KEYS_BATCH_SIZE))[i]? = slotItem items (b * KEYS_BATCH_SIZE + i) := by
  have size : ((items.drop (b * KEYS_BATCH_SIZE)).take KEYS_BATCH_SIZE).length =
      min KEYS_BATCH_SIZE (items.length - b * KEYS_BATCH_SIZE) := by
    rw [List.length_take, List.length_drop]
  have positive : 0 < KEYS_BATCH_SIZE := by decide
  unfold chunkAt
  simp only
  split
  · rename_i last final
    refine ⟨by rw [List.length_append, List.length_replicate, size]; omega, fun i below => ?_⟩
    unfold slotItem
    split
    · rename_i real
      rw [List.getElem?_append_left (by omega), List.getElem?_take_of_lt below, List.getElem?_drop]
    · rename_i beyond
      -- the slice reaches the end of the list
      have whole : (items.drop (b * KEYS_BATCH_SIZE)).take KEYS_BATCH_SIZE =
          items.drop (b * KEYS_BATCH_SIZE) :=
        List.take_of_length_le (by rw [List.length_drop]; omega)
      have ends : items.getLast? = some last := by
        rw [whole, List.getLast?_drop, if_neg (by omega)] at final
        exact final
      rw [List.getElem?_append_right (by omega), List.getElem?_replicate, if_pos (by omega), ends]
  · rename_i none
    rw [List.getLast?_eq_none_iff] at none
    rw [none, List.length_nil] at size
    omega

theorem slotItem_zip {keys : List Bytes} {values : List PyObj} {proofs : List (List Bytes)}
    (first : values.length = keys.length) (second : proofs.length = keys.length) {j : Nat}
    {claim : Bytes × PyObj × List Bytes}
    (slot : slotItem (keys.zip (values.zip proofs)) j = some claim) :
    ∃ i : Nat, slotItem keys j = some claim.1 ∧ keys[i]? = some claim.1 ∧ values[i]? = some claim.2.1 ∧
      proofs[i]? = some claim.2.2 := by
  have size : (keys.zip (values.zip proofs)).length = keys.length := by
    rw [List.length_zip, List.length_zip]
    omega
  unfold slotItem at slot ⊢
  rw [size] at slot
  split at slot
  · rename_i inside
    simp only [List.getElem?_zip_eq_some] at slot
    exact ⟨j, by rw [if_pos inside]; exact slot.1, slot⟩
  · rename_i beyond
    rw [List.getLast?_eq_getElem?, size] at slot
    simp only [List.getElem?_zip_eq_some] at slot
    refine ⟨keys.length - 1, ?_, slot⟩
    rw [if_neg beyond, List.getLast?_eq_getElem?]
    exact slot.1

section Batches
variable {worker : Worker} {tree : MerklePatriciaTrie} {keys : List Bytes}
  {batches : List (List Entry)}

theorem generateBatches_slots (ran : generateBatches worker tree keys = .ok batches) :
    batches.length = (keys.length + 15) / 16 ∧ ∀ (b : Nat) batch, batches[b]? = some batch →
      batch.length = KEYS_BATCH_SIZE ∧ ∀ (i : Nat) entry, batch[i]? = some entry →
        ∃ key, slotItem keys (b * KEYS_BATCH_SIZE + i) = some key ∧
          EntryOf worker tree key entry := by
  unfold generateBatches at ran
  obtain ⟨values, gotten, ran⟩ := ok_of_bind ran
  obtain ⟨proofs, proven, ran⟩ := ok_of_bind ran
  have first := (mapM_inv gotten).length_eq
  have second := (mapM_inv proven).length_eq
  have each := mapM_inv ran
  have count : batches.length = (keys.length + 15) / 16 := by
    rw [← each.length_eq, List.length_range]
    rfl
  refine ⟨count, fun b batch found => ?_⟩
  have inside := (List.getElem?_eq_some_iff.mp found).1
  obtain ⟨_, made⟩ := List.forall₂_iff_get.mp each
  have chunk := made b (by rw [each.length_eq]; exact inside) inside
  simp only [List.get_eq_getElem, List.getElem_range] at chunk
  rw [(List.getElem?_eq_some_iff.mp found).2] at chunk
  have size : (keys.zip (values.zip proofs)).length = keys.length := by
    rw [List.length_zip, List.length_zip]
    omega
  have within : b * KEYS_BATCH_SIZE < (keys.zip (values.zip proofs)).length := by
    rw [size, KEYS_BATCH_SIZE]
    omega
  obtain ⟨length, slots⟩ := chunkAt_slots within
  have entries := mapM_inv chunk
  refine ⟨entries.length_eq.symm.trans length, fun i entry place => ?_⟩
  have below := (List.getElem?_eq_some_iff.mp place).1
  have below' : i < (chunkAt (keys.zip (values.zip proofs)) (b * KEYS_BATCH_SIZE)).length := by
    rw [entries.length_eq]
    exact below
  have claim := slots i (length ▸ below')
  rw [List.getElem?_eq_getElem below'] at claim
  obtain ⟨j, key, here, value, proof⟩ := slotItem_zip first.symm second.symm claim.symm
  obtain ⟨v, got, listed⟩ := mapM_at gotten here
  obtain ⟨p, collected, listed'⟩ := mapM_at proven here
  cases value.symm.trans listed
  cases proof.symm.trans listed'
  have built := (List.forall₂_iff_get.mp entries).2 i below' below
  simp only [List.get_eq_getElem, (List.getElem?_eq_some_iff.mp place).2] at built
  exact ⟨_, key, _, _, got, collected, built⟩

/-- No key has more parents on its path than the circuit has rows. -/
def ShortPaths (worker : Worker) (tree : MerklePatriciaTrie) (keys : List Bytes) : Prop :=
  ∀ key ∈ keys, ∀ proof, getProofTree (zkScheme worker) false tree key = .ok proof →
    proof.length ≤ MAX_DEPTH + 1

theorem slotItem_mem {α : Type} {items : List α} {j : Nat} {item : α}
    (slot : slotItem items j = some item) : item ∈ items := by
  unfold slotItem at slot
  split at slot
  · exact List.mem_of_getElem? slot
  · exact List.mem_of_getLast? slot

/-- What is written has the circuit's shape, exactly if the paths are short enough. -/
theorem circuitShape_iff (worker : Worker) (tree : MerklePatriciaTrie) (keys : List Bytes) :
    (∀ batches, generateBatches worker tree keys = .ok batches →
      CircuitShape worker tree keys batches) ↔
    ∀ batches, generateBatches worker tree keys = .ok batches → ShortPaths worker tree keys := by
  refine forall_congr' fun batches => forall_congr' fun ran => ?_
  obtain ⟨count, each⟩ := generateBatches_slots ran
  constructor
  · intro shape key member proof collected
    obtain ⟨j, inside, rfl⟩ := List.mem_iff_getElem.mp member
    have turn := Nat.div_add_mod' j KEYS_BATCH_SIZE
    have slot : j % KEYS_BATCH_SIZE < KEYS_BATCH_SIZE := Nat.mod_lt _ (by decide)
    have present : j / KEYS_BATCH_SIZE < batches.length := by
      rw [count, KEYS_BATCH_SIZE]
      omega
    have found := List.getElem?_eq_getElem present
    have full := (each _ _ found).1
    have within : j % KEYS_BATCH_SIZE < (batches[j / KEYS_BATCH_SIZE]).length := by
      rw [full]
      exact slot
    have here := List.getElem?_eq_getElem within
    obtain ⟨key, item, value, proof', _, collected', built⟩ := (each _ _ found).2 _ _ here
    rw [turn, slotItem, if_pos inside, List.getElem?_eq_getElem inside] at item
    cases item
    cases collected.symm.trans collected'
    exact (entryShape_iff built).mp (shape.arrays _ (List.getElem_mem present) _ (List.getElem_mem _))
  · intro short
    have place {batch : List Entry} (member : batch ∈ batches) := List.mem_iff_getElem?.mp member
    refine ⟨count, fun batch member => ?_, fun b batch found => (each b batch found).2,
      fun batch member entry present => ?_⟩
    · obtain ⟨b, found⟩ := place member
      exact (each b batch found).1
    · obtain ⟨b, found⟩ := place member
      obtain ⟨i, here⟩ := List.mem_iff_getElem?.mp present
      obtain ⟨key, slot, value, proof, _, collected, built⟩ := (each b batch found).2 i entry here
      exact (entryShape_iff built).mpr (short key (slotItem_mem slot) proof collected)

end Batches

/-- Keys that part from the zero key at every other digit, the deepest first. -/
def forkKey (i : Nat) : ByteString where
  bytes := (List.range 32).map fun j => if j = i then 0x10 else 0
  fits := by
    rw [List.length_map, List.length_range]
    decide

def deepRun : Run := (List.range 7).map fun i => (forkKey (6 - i), sampleValue (i + 1))

/-- Twelve nodes on the path of a key: eleven rows of parents. -/
theorem deep_path_overflows :
    (∀ e ∈ deepRun, e.1.bytes.length = 32 ∧ e.2.bytes.length = 32) ∧
    (∃ e ∈ deepRun, e.1.bytes = (forkKey 6).bytes) ∧
    (insertRun (zkScheme sampleWorker) deepRun).1 = .ok () ∧
    ∃ batches, generateBatches sampleWorker (insertRun (zkScheme sampleWorker) deepRun).2
        [(forkKey 6).bytes] = .ok batches ∧
      ¬ CircuitShape sampleWorker (insertRun (zkScheme sampleWorker) deepRun).2
        [(forkKey 6).bytes] batches := by
  have counts : ((generateBatches sampleWorker (insertRun (zkScheme sampleWorker) deepRun).2
      [(forkKey 6).bytes]).toOption.map fun batches =>
        batches.map fun batch => batch.map fun entry => entry.nodeTypes.length) =
      some [List.replicate 16 11] := by decide +kernel
  obtain ⟨batches, made, lengths⟩ := Option.map_eq_some_iff.mp counts
  refine ⟨by decide, by decide, by decide +kernel, batches, ok_of_toOption made, fun shape => ?_⟩
  have types : ∀ batch ∈ batches, ∀ entry ∈ batch, entry.nodeTypes.length = 10 :=
    fun batch member entry present => (shape.arrays batch member entry present).types
  obtain ⟨batch, rfl, entries⟩ := List.map_eq_singleton_iff.mp lengths
  have eleven : 11 ∈ batch.map fun entry => entry.nodeTypes.length := by
    rw [entries]
    exact List.mem_replicate.mpr ⟨by decide, rfl⟩
  obtain ⟨entry, present, length⟩ := List.mem_map.mp eleven
  have ten := types batch List.mem_cons_self entry present
  omega

end SnarkShape
