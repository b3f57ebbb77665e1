import StatelessEthereum.SnarkChain
import Mathlib.Data.Nat.ModEq

/- What the public inputs of the SNARK prover say of a value. -/
namespace SnarkSignals
open PythonError BigEndian MerkleNodes MerkleForms ZkEncoding PoseidonMode SnarkWitness
open StateEffect PutLog DiskLog
open NibblePaths hiding ofBytes
open MerkleTrees hiding insert get
open MerkleRuns (Run insertRun emptyTrie)
open PoseidonTrie (FIELD_MOD sampleKey sampleValue)

/-- The inputs that are made from the value, whatever the root. -/
def SameSignals (v v' : Bytes) : Prop := ∀ root,
  (publicSignals root v).lengthPub = (publicSignals root v').lengthPub ∧
  (publicSignals root v).valPub0 = (publicSignals root v').valPub0 ∧
  (publicSignals root v).valPub1 = (publicSignals root v').valPub1 ∧
  (publicSignals root v).valPub2 = (publicSignals root v').valPub2

/- Words. -/

theorem ofBytes_zeros (n : Nat) : ofBytes (List.replicate n 0) = 0 := by
  induction n with
  | zero => rfl
  | succ n ih => rw [List.replicate_succ, ofBytes_cons, ih, UInt8.toNat_zero, Nat.zero_mul]

theorem ofBytes_ljust (v : Bytes) (length : Nat) :
    ofBytes (ljust v length) = ofBytes v * 256 ^ (length - v.length) := by
  rw [ljust, ofBytes_append, ofBytes_zeros, List.length_replicate, Nat.add_zero]

theorem first_word {v : Bytes} (short : v.length ≤ 32) : slice (ljust v 96) 0 32 = ljust v 32 := by
  have zeros : List.replicate (96 - v.length) (0 : UInt8) =
      List.replicate (32 - v.length) 0 ++ List.replicate 64 0 := by
    rw [← List.replicate_add]
    congr 1
    omega
  have parts : ljust v 96 = ljust v 32 ++ List.replicate 64 0 := by
    rw [ljust, zeros, ljust, List.append_assoc]
  rw [parts, slice_field _ (ljust_length short)]

/-- Below the length of a word a value has one residue to itself. -/
theorem short_determined {v v' : Bytes} (short : v.length < 32) (same : SameSignals v v') :
    v = v' := by
  obtain ⟨length, word, _, _⟩ := same []
  have lengths : v.length = v'.length := length
  have residues : Nat.ModEq FIELD_MOD (ofBytes v * 256 ^ (32 - v.length))
      (ofBytes v' * 256 ^ (32 - v.length)) := by
    have words : toField (slice (ljust v 96) 0 32) = toField (slice (ljust v' 96) 0 32) := word
    rw [first_word (by omega), first_word (by omega), toField, toField, ofBytes_ljust, ofBytes_ljust,
      ← lengths] at words
    exact words
  have odd : Nat.Coprime FIELD_MOD 256 := by decide
  have cancelled : Nat.ModEq FIELD_MOD (ofBytes v) (ofBytes v') :=
    Nat.ModEq.cancel_right_of_coprime (odd.pow_right _) residues
  have below (w : Bytes) (few : w.length < 32) : ofBytes w < FIELD_MOD := by
    calc ofBytes w < 256 ^ w.length := ofBytes_lt w
      _ ≤ 256 ^ 31 := Nat.pow_le_pow_right (by decide) (by omega)
      _ < FIELD_MOD := by decide
  exact ofBytes_injective lengths
    (Nat.ModEq.eq_of_lt_of_lt cancelled (below v short) (below v' (lengths ▸ short)))

def otherResidue (n : Nat) : Nat := if n < FIELD_MOD then n + FIELD_MOD else n - FIELD_MOD

theorem otherResidue_mod (n : Nat) : otherResidue n % FIELD_MOD = n % FIELD_MOD := by
  unfold otherResidue
  split
  · exact Nat.add_mod_right n FIELD_MOD
  · exact (Nat.mod_eq_sub_mod (by omega)).symm

theorem otherResidue_lt {n : Nat} (word : n < 256 ^ 32) : otherResidue n < 256 ^ 32 := by
  have room : 2 * FIELD_MOD < 256 ^ 32 := by decide
  unfold otherResidue
  split <;> omega

theorem otherResidue_ne (n : Nat) : otherResidue n ≠ n := by
  have positive : 0 < FIELD_MOD := by decide
  unfold otherResidue
  split <;> omega

/-- The value with the other number in its first word. -/
def twin (v : Bytes) : Bytes := toBytes 32 (otherResidue (ofBytes (v.take 32))) ++ v.drop 32

theorem twin_length {v : Bytes} (long : 32 ≤ v.length) : (twin v).length = v.length := by
  rw [twin, List.length_append, toBytes_length, List.length_drop]
  omega

theorem take_word {v : Bytes} (long : 32 ≤ v.length) : ofBytes (v.take 32) < 256 ^ 32 := by
  have bound := ofBytes_lt (v.take 32)
  rwa [List.length_take, Nat.min_eq_left long] at bound

theorem twin_ne {v : Bytes} (long : 32 ≤ v.length) : twin v ≠ v := by
  intro same
  have first : toBytes 32 (otherResidue (ofBytes (v.take 32))) = v.take 32 := by
    have cut := congrArg (List.take 32) same
    rwa [twin, List.take_left' (toBytes_length _ _)] at cut
  have number := congrArg ofBytes first
  rw [ofBytes_toBytes_of_lt (otherResidue_lt (take_word long))] at number
  exact otherResidue_ne _ number

theorem twin_signals {v : Bytes} (long : 32 ≤ v.length) : SameSignals v (twin v) := by
  have length := twin_length long
  have zeros : 96 - v.length = 64 - (v.drop 32).length := by
    rw [List.length_drop]
    omega
  have whole : ljust v 96 = v.take 32 ++ ljust (v.drop 32) 64 := by
    rw [ljust, zeros, ljust, ← List.append_assoc, List.take_append_drop]
  have whole' : ljust (twin v) 96 =
      toBytes 32 (otherResidue (ofBytes (v.take 32))) ++ ljust (v.drop 32) 64 := by
    rw [ljust, length, zeros, twin, List.append_assoc, ljust]
  have size : (v.take 32).length = 32 := by
    rw [List.length_take]
    omega
  have rest (a b : Nat) (behind : 32 ≤ a) : slice (ljust v 96) a b = slice (ljust (twin v) 96) a b := by
    rw [whole, whole', slice_behind size behind, slice_behind (toBytes_length _ _) behind]
  have first : slice (ljust v 96) 0 32 = v.take 32 := by rw [whole, slice_field _ size]
  have first' : slice (ljust (twin v) 96) 0 32 =
      toBytes 32 (otherResidue (ofBytes (v.take 32))) := by
    rw [whole', slice_field _ (toBytes_length _ _)]
  have word : toField (v.take 32) = toField (toBytes 32 (otherResidue (ofBytes (v.take 32)))) := by
    rw [toField, toField, ofBytes_toBytes_of_lt (otherResidue_lt (take_word long)), otherResidue_mod]
  intro root
  simp only [publicSignals, first, first', word, rest 32 64 (by decide), rest 64 96 (by decide), length,
    true_and]

/- Which values are taken: a trie of one leaf holds any, and the prover refuses the
   leaves that have too many chunks. -/
section OneLeaf
variable (worker : Worker) (key v : Bytes)

@[simp] theorem zkScheme_decode : (zkScheme worker).decode = zkDecode := rfl

def leafForm : Form := .leaf (nibbles key) v

def leafRef : Bytes := poseidonHashBytes worker (layout (leafForm key v))

structure OneLeaf (t : MerklePatriciaTrie) : Prop where
  rootRef : t.rootRef = some (leafRef worker key v)
  stored : t.disk.db.get (leafRef worker key v) = some (layout (leafForm key v))

theorem first_insert : ∃ t, MerkleTrees.insert (zkScheme worker) false key v emptyTrie = (.ok (), t) ∧
    OneLeaf worker key v t := by
  obtain ⟨path, parsed, width, digits⟩ := ofBytes_hex key 0
  have shows : Shows (.leaf path (.bytes v)) (leafForm key v) := ⟨width, digits, rfl⟩
  have encoded : zkEncode (.leaf path (.bytes v)) = .ok (layout (leafForm key v)) := node_zkEncode shows
  have referred : (zkScheme worker).reference (.leaf path (.bytes v)) = .ok (leafRef worker key v) := by
    simp only [zkScheme, encoded, bind, Except.bind]
    rfl
  have wide : (leafRef worker key v).length = 32 := toBytes_length _ _
  have stored (s : MerklePatriciaTrie) : storeNode (zkScheme worker) (.leaf path (.bytes v)) s =
      (.ok (leafRef worker key v), { s with disk := s.disk.apply (.put (leafRef worker key v)
        (layout (leafForm key v))) }) := by
    have coded : (zkScheme worker).encode (.leaf path (.bytes v)) = .ok (layout (leafForm key v)) := encoded
    simp only [storeNode, referred, coded, lift_run, bind_run, wide, ↓reduceIte, write, modify_run, pure_run]
  have fresh : asReference emptyTrie.rootRef = .none := rfl
  have keyed : keyPath (zkScheme worker) false key = .ok path := parsed
  have made : MerkleTrees.insert (zkScheme worker) false key v emptyTrie = (.ok (),
      ⟨((emptyTrie.disk.apply (.put (leafRef worker key v) (layout (leafForm key v)))).apply
        .truncateRoot).apply (.writeRoot (leafRef worker key v)), some (leafRef worker key v),
        some (leafRef worker key v)⟩) := by
    simp only [MerkleTrees.insert, keyed, lift_run, bind_run, reads_run, update, fresh, PyObj.truthy,
      Bool.not_false, ↓reduceIte, stored, write, modify_run]
  exact ⟨_, made, rfl, get_put _ _ _⟩

/-- Any value that a byte string holds fits the format. -/
theorem leaf_codable (whole : key.length = 32) (fits : v.length ≤ MAX_BYTES) :
    Codable (leafForm key v) :=
  ⟨path_fits ⟨nibbles_lt _, by rw [nibbles_length, whole]⟩ true,
    Nat.lt_of_le_of_lt fits (by decide)⟩

variable {worker key v}

theorem leaf_loads (codable : Codable (leafForm key v)) :
    ∃ path, zkDecode (layout (leafForm key v)) = .ok (.leaf path (.bytes v)) ∧
      Shows (.leaf path (.bytes v)) (leafForm key v) := by
  obtain ⟨node, decoded, shows⟩ := node_zkDecode codable
  cases node <;> simp only [leafForm, Shows] at shows
  rename_i path data
  obtain ⟨width, digits, rfl⟩ := shows
  exact ⟨path, decoded, width, digits, rfl⟩

theorem one_leaf_answers (codable : Codable (leafForm key v)) {t : MerklePatriciaTrie}
    (one : OneLeaf worker key v t) :
    MerkleTrees.get (zkScheme worker) false t key = .ok (.bytes v) ∧
      getProofTree (zkScheme worker) false t key = .ok [layout (leafForm key v)] := by
  obtain ⟨path, parsed, width, digits⟩ := ofBytes_hex key 0
  obtain ⟨nodePath, decoded, _, nodeDigits, _⟩ := leaf_loads codable
  have keyed : keyPath (zkScheme worker) false key = .ok path := parsed
  have equal : nodePath.eq path = true := (NibblePath.eq_iff _ _).mpr (nodeDigits.trans digits.symm)
  have wide : (leafRef worker key v).length = 32 := toBytes_length _ _
  have loaded : getNode (zkScheme worker) t.disk.db (.bytes (leafRef worker key v)) =
      .ok (.leaf nodePath (.bytes v)) := by
    simp only [getNode, one.stored, zkScheme_decode, decoded]
  constructor
  · simp only [MerkleTrees.get, one.rootRef, keyed, getFrom, loaded, equal, bind, Except.bind, ↓reduceIte,
      ite_self, nodeData]
  · simp only [getProofTree, one.rootRef, keyed, collect, collectEncoded, PyObj.len, wide, one.stored,
      zkScheme_decode, decoded, equal, bind, Except.bind, ↓reduceIte, nodeData]

theorem leaf_chunks (codable : Codable (leafForm key v)) :
    (fieldElements (layout (leafForm key v))).length = 5 + (max 96 v.length + 31) / 32 := by
  have value : (ljust v 96).length = max 96 v.length := by
    rw [ljust, List.length_append, List.length_replicate]
    omega
  have size : (layout (leafForm key v)).length = 160 + max 96 v.length := by
    have path := pathField_length codable.1
    simp only [leafForm, layout, dataField, List.length_append, toBytes_length, path, value]
    omega
  rw [fieldElements, List.length_map, List.length_range, padded]
  split
  · rw [List.length_append, List.length_replicate, size]
    omega
  · rw [size]
    omega

theorem leaf_data_iff (codable : Codable (leafForm key v)) {path : NibblePath}
    (shows : Shows (.leaf path (.bytes v)) (leafForm key v)) :
    (∃ data, getNodeData (.leaf path (.bytes v)) = .ok data) ↔ v.length ≤ 1120 := by
  have chunks := leaf_chunks codable
  have padded : (fieldElements (layout (leafForm key v)) ++ List.replicate
      (MAX_CHUNKS - (fieldElements (layout (leafForm key v))).length) 0).length =
        max 40 (5 + (max 96 v.length + 31) / 32) := by
    rw [List.length_append, List.length_replicate, chunks, MAX_CHUNKS]
    omega
  simp only [getNodeData, node_zkEncode shows, bind, Except.bind]
  rw [padded, MAX_CHUNKS]
  constructor
  · rintro ⟨data, made⟩
    split at made
    · cases made
    · omega
  · intro short
    exact ⟨_, if_neg (by omega)⟩

theorem leaf_entry_iff (codable : Codable (leafForm key v)) (root : Bytes) :
    (∃ entry, batchEntry root key (.bytes v) [layout (leafForm key v)] = .ok entry) ↔
      v.length ≤ 1120 := by
  obtain ⟨path, decoded, shows⟩ := leaf_loads codable
  obtain ⟨pathObj, parsed, _⟩ := ofBytes_hex key 0
  rw [← leaf_data_iff codable shows]
  simp only [batchEntry, valueBytes, List.mapM_cons, List.mapM_nil, decoded, parsed, bind, Except.bind,
    pure, Except.pure, splitLast, List.getLast?_singleton, List.dropLast_singleton]
  cases getNodeData (.leaf path (.bytes v)) with
  | error e => simp
  | ok data => simp [parentRows, depthsFrom, pure, Except.pure]

end OneLeaf

theorem one_key_iff {worker : Worker} {key : Bytes} {t : MerklePatriciaTrie} {value : PyObj}
    {proof : List Bytes} (got : MerkleTrees.get (zkScheme worker) false t key = .ok value)
    (collected : getProofTree (zkScheme worker) false t key = .ok proof) :
    (∃ batches, generateBatches worker t [key] = .ok batches) ↔
      ∃ entry, batchEntry (rootHash (zkScheme worker) t) key value proof = .ok entry := by
  have unfolded : generateBatches worker t [key] = (List.range 1).mapM fun chunkIdx =>
      (chunkAt [(key, value, proof)] (chunkIdx * KEYS_BATCH_SIZE)).mapM fun c =>
        batchEntry (rootHash (zkScheme worker) t) c.1 c.2.1 c.2.2 := by
    have turns : ([key].length + KEYS_BATCH_SIZE - 1) / KEYS_BATCH_SIZE = 1 := by simp [KEYS_BATCH_SIZE]
    simp only [generateBatches, turns, List.mapM_cons, List.mapM_nil, got, collected, bind, Except.bind,
      pure, Except.pure, List.zip_cons_cons, List.zip_nil_left]
  have slots : chunkAt [(key, value, proof)] (0 * KEYS_BATCH_SIZE) = List.replicate 16 (key, value, proof) :=
    rfl
  rw [unfolded]
  constructor
  · rintro ⟨batches, ran⟩
    obtain ⟨batch, _, first, _, _⟩ := mapM_cons_inv ran
    rw [slots] at first
    obtain ⟨entry, _, built, _, _⟩ := mapM_cons_inv first
    exact ⟨entry, built⟩
  · rintro ⟨entry, built⟩
    have every : ∀ c ∈ [(key, value, proof)], ∃ entry,
        batchEntry (rootHash (zkScheme worker) t) c.1 c.2.1 c.2.2 = .ok entry ∧ True := by
      intro c member
      rw [List.mem_singleton.mp member]
      exact ⟨entry, built, trivial⟩
    have each : ∀ chunkIdx ∈ List.range 1, ∃ batch,
        (chunkAt [(key, value, proof)] (chunkIdx * KEYS_BATCH_SIZE)).mapM (fun c =>
          batchEntry (rootHash (zkScheme worker) t) c.1 c.2.1 c.2.2) = .ok batch ∧ True := by
      intro chunkIdx _
      obtain ⟨batch, ran, _⟩ := PythonError.mapM_ok fun c present =>
        every c (SnarkChain.chunkAt_subset _ _ present)
      exact ⟨batch, ran, trivial⟩
    obtain ⟨batches, ran, _⟩ := PythonError.mapM_ok each
    exact ⟨batches, ran⟩

/-- A key takes the value in an empty trie, and the prover returns for it. -/
def Accepted (worker : Worker) (v : ByteString) : Prop :=
  ∃ key : ByteString, key.bytes.length = 32 ∧ ∃ t batches,
    insertRun (zkScheme worker) [(key, v)] = (.ok (), t) ∧
      generateBatches worker t [key.bytes] = .ok batches

theorem accepted_iff (worker : Worker) (v : ByteString) : Accepted worker v ↔ v.bytes.length ≤ 1120 := by
  have answers (key : ByteString) (whole : key.bytes.length = 32) :
      ∃ t, insertRun (zkScheme worker) [(key, v)] = (.ok (), t) ∧
        ((∃ batches, generateBatches worker t [key.bytes] = .ok batches) ↔ v.bytes.length ≤ 1120) := by
    obtain ⟨t, made, one⟩ := first_insert worker key.bytes v.bytes
    have codable := leaf_codable key.bytes v.bytes whole v.fits
    obtain ⟨got, collected⟩ := one_leaf_answers codable one
    have run : insertRun (zkScheme worker) [(key, v)] = (.ok (), t) := forEach_cons made []
    exact ⟨t, run, (one_key_iff got collected).trans (leaf_entry_iff codable _)⟩
  constructor
  · rintro ⟨key, whole, t, batches, inserted, ran⟩
    obtain ⟨t', inserted', iff⟩ := answers key whole
    cases inserted.symm.trans inserted'
    exact iff.mp ⟨batches, ran⟩
  · intro short
    obtain ⟨t, inserted, iff⟩ := answers (sampleKey 0) rfl
    obtain ⟨batches, ran⟩ := iff.mpr short
    exact ⟨sampleKey 0, rfl, t, batches, inserted, ran⟩

/-- The public inputs say which value it is, exactly if it is shorter than a word. -/
theorem signals_determine_iff {worker : Worker} {v : ByteString} (accepted : Accepted worker v) :
    (∀ v' : ByteString, Accepted worker v' → SameSignals v.bytes v'.bytes → v.bytes = v'.bytes) ↔
      v.bytes.length < 32 := by
  constructor
  · intro determined
    by_contra long
    have long : 32 ≤ v.bytes.length := Nat.le_of_not_lt long
    have length := twin_length long
    let v' : ByteString := ⟨twin v.bytes, (Nat.le_of_eq length).trans v.fits⟩
    have accepted' : Accepted worker v' :=
      (accepted_iff worker v').mpr ((Nat.le_of_eq length).trans ((accepted_iff worker v).mp accepted))
    exact twin_ne long (determined v' accepted' (twin_signals long)).symm
  · intro short v' _ same
    exact short_determined short same

theorem signals_determine_sample :
    (∀ v' : ByteString, Accepted sampleWorker v' → SameSignals (sampleValue 7).bytes v'.bytes →
      (sampleValue 7).bytes = v'.bytes) ↔ (sampleValue 7).bytes.length < 32 :=
  signals_determine_iff ((accepted_iff _ _).mpr (by decide))

/-- Zero and the prime, as words. -/
theorem prime_for_zero : Accepted sampleWorker (sampleValue 0) ∧
    Accepted sampleWorker (sampleValue FIELD_MOD) ∧
    SameSignals (sampleValue 0).bytes (sampleValue FIELD_MOD).bytes ∧
    (sampleValue 0).bytes ≠ (sampleValue FIELD_MOD).bytes := by
  have twins : (sampleValue FIELD_MOD).bytes = twin (sampleValue 0).bytes := by decide
  have long : 32 ≤ (sampleValue 0).bytes.length := by decide
  refine ⟨(accepted_iff _ _).mpr (by decide), (accepted_iff _ _).mpr (by decide), ?_, ?_⟩
  · rw [twins]
    exact twin_signals long
  · rw [twins]
    exact (twin_ne long).symm

end SnarkSignals
