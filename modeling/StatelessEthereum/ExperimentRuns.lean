import StatelessEthereum.MerkleBatches

/- The driver of the experiments (run_experiment.py), for tries in keccak mode and the two
   Merkle provers: it decodes the data and inserts it, then every round proves some of the
   keys and asserts that the proof verifies. The shuffles are given with the rounds. -/
namespace ExperimentRuns
open PythonError BigEndian StateEffect NibblePaths MerkleNodes MerkleForms CompactTrie
open MerkleTrees hiding insert get
open MerkleStorage MerkleRefinement MerkleRuns MerkleCompleteness MerkleBatches

def hexDigit (c : Char) : Option Nat :=
  if '0' ≤ c ∧ c ≤ '9' then some (c.toNat - 48)
  else if 'a' ≤ c ∧ c ≤ 'f' then some (c.toNat - 87)
  else if 'A' ≤ c ∧ c ≤ 'F' then some (c.toNat - 55)
  else none

def isSpace (c : Char) : Bool := c == ' ' || (9 ≤ c.toNat && c.toNat ≤ 13)

/-- `bytes.fromhex`; white space may stand between bytes. -/
def fromHex : List Char → Except PyError Bytes
  | [] => .ok []
  | [c] => if isSpace c then .ok [] else .error (.valueError "")
  | c :: d :: rest =>
    if isSpace c then fromHex (d :: rest)
    else
      match hexDigit c, hexDigit d with
      | some high, some low => do
        let bytes ← fromHex rest
        .ok (UInt8.ofNat (16 * high + low) :: bytes)
      | _, _ => .error (.valueError "")

/-- `s[2:] if s.startswith("0x") else s` -/
def stripped (s : String) : List Char :=
  match s.toList with
  | '0' :: 'x' :: rest => rest
  | chars => chars

def hexToBytes (s : String) (expectedLength : Nat) : Except PyError Bytes := do
  let b ← fromHex (stripped s)
  if b.length < expectedLength then .ok (List.replicate (expectedLength - b.length) 0 ++ b)
  else .ok b

inductive ProverType where
  | merkle
  | merkleOptimized
  deriving DecidableEq

/-- A prover of the setup, a number of keys and what the shuffle makes of all keys. -/
structure Round where
  prover : ProverType
  numKeysProve : Nat
  shuffledKeys : List String

def Round.keysToProve (r : Round) : List String := r.shuffledKeys.take r.numKeysProve

def insertData (scheme : Scheme) (data : List (String × String)) : TrieEffect Unit :=
  forEach (fun e => do
    let keyBytes ← lift (hexToBytes e.1 32)
    let valBytes ← lift (fromHex (stripped e.2))
    MerkleTrees.insert scheme false keyBytes valBytes) data

/-- `hex_to_bytes(data[k])` -/
def expectedValue (data : List (String × String)) (k : String) : Except PyError Bytes :=
  match data.lookup k with
  | some v => hexToBytes v 32
  | none => .error (.keyError k)

/-- `get_proof_size` -/
def getProofSize (commitments : List (List Bytes)) (rootHash : Bytes) : Nat :=
  (commitments.map fun proofPath => (proofPath.map List.length).sum).sum + rootHash.length

def pathSize (info : MerkleOptimized.PathInfo) : Except PyError Nat := do
  let keyIdx ← intToBytes 4 info.keyIdx
  .ok (keyIdx.length + info.nodeIndices.length * 2)

/-- `proof_size` of the prover of single nodes. -/
def proofSize (proof : MerkleOptimized.DeduplicatedProof) (witness : Bytes) : Except PyError Nat := do
  let pathSizes ← proof.proofPaths.mapM pathSize
  .ok ((proof.nodes.map List.length).sum + pathSizes.sum + witness.length)

def check (accepted : Bool) : Except PyError Unit :=
  if accepted then .ok () else .error (.assertionError "")

section Driver
variable (pyHash : Bytes → Int) (keccak : Bytes → Bytes)

/-- The body of the inner loop, with the proof size of the row that it writes. -/
def runRound (data : List (String × String)) (numKeys : Nat) (tree : MerklePatriciaTrie)
    (r : Round) : Except PyError Nat :=
  if numKeys < r.numKeysProve then
    .error (.valueError (s!"NUM_KEYS_TO_PROVE ({r.numKeysProve}) cannot be greater than the " ++
      s!"number of keys in the tree ({numKeys})."))
  else do
    let keyBytes ← r.keysToProve.mapM fun k => hexToBytes k 32
    match r.prover with
    | .merkle => do
      let proof ← MerkleVerifiers.generateProof (keccakScheme keccak) false tree keyBytes
      let values ← r.keysToProve.mapM (expectedValue data)
      let accepted ← MerkleVerifiers.verifyProof keccak values keyBytes tree.rootValue proof
      check accepted
      .ok (getProofSize proof.1 proof.2)
    | .merkleOptimized => do
      let proof ← MerkleOptimized.generateProof pyHash (keccakScheme keccak) false tree keyBytes
      let size ← proofSize proof.1 proof.2
      let values ← r.keysToProve.mapM (expectedValue data)
      let accepted ← MerkleOptimized.verifyProof keccak values keyBytes tree.rootValue proof
      check accepted
      .ok size

/-- One tree of the experiment: the first items of the data, then the rounds. -/
def runExperiment (numKeys : Nat) (data : List (String × String)) (rounds : List Round) :
    Except PyError (List Nat) :=
  let data := data.take numKeys
  let (inserted, tree) := insertData (keccakScheme keccak) data emptyTrie
  do
    inserted
    rounds.mapM (runRound pyHash keccak data numKeys tree)

end Driver

/- What the data says. -/

def Reads (e : String × String) (b : ByteString × ByteString) : Prop :=
  hexToBytes e.1 32 = .ok b.1.bytes ∧ fromHex (stripped e.2) = .ok b.2.bytes

instance (e : String × String) (b : ByteString × ByteString) : Decidable (Reads e b) :=
  inferInstanceAs (Decidable (_ ∧ _))

section Data
variable {data : List (String × String)} {run : Run}

theorem insertData_run {scheme : Scheme} (reads : List.Forall₂ Reads data run) :
    insertData scheme data = insertEach scheme false run.plain := by
  induction reads with
  | nil => rfl
  | @cons e b data run decoded _ ih =>
    obtain ⟨key, value⟩ := decoded
    have step : (do
        let keyBytes ← lift (hexToBytes e.1 32)
        let valBytes ← lift (fromHex (stripped e.2))
        MerkleTrees.insert scheme false keyBytes valBytes : TrieEffect Unit) =
          MerkleTrees.insert scheme false b.1.bytes b.2.bytes := by
      funext s
      rw [key, value]
      rfl
    rw [insertData, forEach, step, ← insertData, ih]
    rfl

theorem hexToBytes_long {s : String} {b : Bytes} (decoded : fromHex (stripped s) = .ok b)
    (long : 32 ≤ b.length) : hexToBytes s 32 = .ok b := by
  rw [hexToBytes, decoded]
  simp only [bind, Except.bind]
  rw [if_neg (by omega)]

theorem expectedValue_read (keys : (data.map Prod.fst).Nodup) {e : String × String}
    (member : e ∈ data) {v : Bytes} (decoded : fromHex (stripped e.2) = .ok v)
    (long : 32 ≤ v.length) : expectedValue data e.1 = .ok v := by
  have found : data.lookup e.1 = some e.2 := by
    induction data with
    | nil => cases member
    | cons d data ih =>
      rw [List.map_cons, List.nodup_cons] at keys
      rcases List.mem_cons.mp member with rfl | later
      · rw [List.lookup_cons, beq_self_eq_true]
      · have off : (e.1 == d.1) = false := by
          rw [beq_eq_false_iff_ne]
          intro same
          exact keys.1 (same ▸ List.mem_map_of_mem later)
        rw [List.lookup_cons, off]
        exact ih keys.2 later
  rw [expectedValue, found]
  exact hexToBytes_long decoded long

theorem items_picked (reads : List.Forall₂ Reads data run) (keys : (data.map Prod.fst).Nodup)
    (occupied : run ≠ []) : ∃ pick : String → ByteString × ByteString,
      ∀ x ∈ data.zip run, pick x.1.1 = x.2 := by
  have firsts : (data.zip run).map (fun x => x.1.1) = data.map Prod.fst := by
    rw [← congrArg (List.map Prod.fst) (List.map_fst_zip reads.length_eq.le), List.map_map]
    rfl
  have unique : ∀ x ∈ data.zip run, ∀ y ∈ data.zip run, x.1.1 = y.1.1 → x = y :=
    fun x first y second same => List.inj_on_of_nodup_map (firsts ▸ keys) first second same
  have each (k : String) : ∃ b, ∀ x ∈ data.zip run, x.1.1 = k → b = x.2 := by
    by_cases held : ∃ y ∈ data.zip run, y.1.1 = k
    · obtain ⟨y, inside, rfl⟩ := held
      exact ⟨y.2, fun x member same => by rw [unique x member y inside same]⟩
    · exact ⟨run.head occupied, fun x member same => absurd ⟨x, member, same⟩ held⟩
  choose pick picked using each
  exact ⟨pick, fun x member => picked x.1.1 x member rfl⟩

end Data

/- The sizes. -/

theorem check_ok {accepted : Bool} {size n : Nat} :
    (check accepted >>= fun _ => (.ok size : Except PyError Nat)) = .ok n ↔
      accepted = true ∧ size = n := by
  cases accepted <;> simp [check, bind, Except.bind]

theorem pathSize_ok (info : MerkleOptimized.PathInfo) :
    (∃ size, pathSize info = .ok size) ↔ info.keyIdx < 4294967296 := by
  unfold pathSize intToBytes
  by_cases small : info.keyIdx < 256 ^ 4
  · simp only [small, ↓reduceIte, bind, Except.bind]
    exact ⟨fun _ => small, fun _ => ⟨_, rfl⟩⟩
  · simp only [small, ↓reduceIte, bind, Except.bind]
    refine ⟨?_, fun fits => absurd fits small⟩
    rintro ⟨_, made⟩
    cases made

theorem proofSize_ok (proof : MerkleOptimized.DeduplicatedProof) (witness : Bytes) :
    (∃ size, proofSize proof witness = .ok size) ↔
      ∀ info ∈ proof.proofPaths, info.keyIdx < 4294967296 := by
  constructor
  · rintro ⟨size, made⟩ info member
    obtain ⟨sizes, paths, _⟩ := ok_of_bind made
    obtain ⟨i, inside, rfl⟩ := List.mem_iff_getElem.mp member
    obtain ⟨s, here, _⟩ := mapM_at paths (List.getElem?_eq_getElem inside)
    exact (pathSize_ok _).mp ⟨s, here⟩
  · intro fits
    obtain ⟨sizes, paths, _⟩ := mapM_ok (f := pathSize) (R := fun _ _ => True) fun info member =>
      ((pathSize_ok info).mpr (fits info member)).imp fun _ here => ⟨here, trivial⟩
    unfold proofSize
    rw [paths]
    exact ⟨_, rfl⟩

theorem collectPaths_indices {pyHash : Bytes → Int} {scheme : Scheme} {secure : Bool}
    {tree : MerklePatriciaTrie} {table table' : Interning.Table Bytes Int} {keyIdx : Nat}
    {keys : List Bytes} {paths : List MerkleOptimized.PathInfo}
    (ran : MerkleOptimized.collectPaths pyHash scheme secure tree table keyIdx keys =
      .ok (table', paths)) :
    paths.map MerkleOptimized.PathInfo.keyIdx = List.range' keyIdx keys.length := by
  induction keys generalizing table keyIdx paths with
  | nil =>
    cases ran
    rfl
  | cons key keys ih =>
    obtain ⟨proof, _, ran⟩ := ok_of_bind ran
    obtain ⟨⟨last, later⟩, rest, made⟩ := ok_of_bind ran
    cases made
    rw [List.map_cons, List.length_cons, List.range'_succ, ih rest]

theorem generated_size {pyHash : Bytes → Int} {scheme : Scheme} {secure : Bool}
    {tree : MerklePatriciaTrie} {keys : List Bytes}
    {proof : MerkleOptimized.DeduplicatedProof × Bytes}
    (made : MerkleOptimized.generateProof pyHash scheme secure tree keys = .ok proof) :
    (∃ size, proofSize proof.1 proof.2 = .ok size) ↔ keys.length ≤ 4294967296 := by
  obtain ⟨⟨table, paths⟩, ran, rest⟩ := ok_of_bind made
  cases rest
  have numbered := collectPaths_indices ran
  rw [proofSize_ok, ← List.forall_mem_map (P := fun i => i < 4294967296), numbered]
  constructor
  · intro fits
    cases count : keys.length with
    | zero => omega
    | succ n =>
      have last := fits n (by rw [List.mem_range']; exact ⟨n, by omega, by omega⟩)
      omega
  · intro few i member
    obtain ⟨j, inside, rfl⟩ := List.mem_range'.mp member
    omega

/- One round. -/
section Rounds
variable {keccak : Keccak} {T : NibbleTrie} {t : MerklePatriciaTrie} {pyHash : Bytes → Int}

def claimOf (pick : String → ByteString × ByteString) (k : String) : Bytes × Bytes :=
  ((pick k).1.bytes, (pick k).2.bytes)

/-- Can the round go through at all? Its index of a key has four bytes in the proof of
    single nodes. -/
def Round.fits (numKeys : Nat) (r : Round) : Prop :=
  r.numKeysProve ≤ numKeys ∧
    (r.prover = .merkleOptimized → r.keysToProve.length ≤ 4294967296)

instance (numKeys : Nat) (r : Round) : Decidable (r.fits numKeys) :=
  inferInstanceAs (Decidable (_ ∧ _))

theorem runRound_ok (good : Good keccakLimits t) (shown : Represents (keccakCodec keccak) T t)
    (occupied : T ≠ .empty)
    (apart : ∀ a ∈ storedEncodings t, ∀ b ∈ storedEncodings t, pyHash a = pyHash b → a = b)
    {data : List (String × String)} {numKeys : Nat} {r : Round}
    {pick : String → ByteString × ByteString}
    (keys : ∀ k ∈ r.keysToProve, hexToBytes k 32 = .ok (claimOf pick k).1)
    (values : ∀ k ∈ r.keysToProve, expectedValue data k = .ok (claimOf pick k).2)
    (known : ∀ k ∈ r.keysToProve, lookup T (nibbles (claimOf pick k).1) ≠ none) :
    (∃ size, runRound pyHash keccak.hash data numKeys t r = .ok size) ↔
      r.fits numKeys ∧ truthful T (r.keysToProve.map (claimOf pick)) = true := by
  have keyBytes : r.keysToProve.mapM (fun k => hexToBytes k 32) =
      .ok ((r.keysToProve.map (claimOf pick)).map Prod.fst) := by
    rw [List.map_map]
    exact mapM_eq keys
  have expected : r.keysToProve.mapM (expectedValue data) =
      .ok ((r.keysToProve.map (claimOf pick)).map Prod.snd) := by
    rw [List.map_map]
    exact mapM_eq values
  have stored : ∀ c ∈ r.keysToProve.map (claimOf pick), lookup T (nibbles c.1) ≠ none := by
    intro c member
    obtain ⟨k, inside, rfl⟩ := List.mem_map.mp member
    exact known k inside
  obtain ⟨plain, single⟩ := both_batches good shown occupied apart stored
  unfold runRound Round.fits
  by_cases many : numKeys < r.numKeysProve
  · rw [if_pos many]
    refine ⟨?_, fun holds => absurd holds.1.1 (by omega)⟩
    rintro ⟨_, made⟩
    cases made
  · have enough : r.numKeysProve ≤ numKeys := by omega
    rw [if_neg many, keyBytes, expected]
    cases r.prover with
    | merkle =>
      obtain ⟨proof, made, verdict⟩ := ok_of_bind plain
      simp only [made, verdict, bind, Except.bind, enough, reduceCtorEq, false_implies, true_and]
      exact ⟨fun ⟨_, ran⟩ => (check_ok.mp ran).1, fun truth => ⟨_, check_ok.mpr ⟨truth, rfl⟩⟩⟩
    | merkleOptimized =>
      obtain ⟨proof, made, verdict⟩ := ok_of_bind single
      have sized := generated_size made
      rw [List.length_map, List.length_map] at sized
      simp only [true_implies, ← sized]
      constructor
      · rintro ⟨size, ran⟩
        simp only [made, bind, Except.bind] at ran
        obtain ⟨n, fits, ran⟩ := ok_of_bind ran
        simp only [verdict] at ran
        exact ⟨⟨enough, n, fits⟩, (check_ok.mp ran).1⟩
      · rintro ⟨⟨_, n, fits⟩, truth⟩
        refine ⟨n, ?_⟩
        simp only [made, fits, verdict, bind, Except.bind]
        exact check_ok.mpr ⟨truth, rfl⟩

end Rounds

theorem rounds_ok {α β : Type} {f : α → Except PyError β} {l : List α} :
    (∃ bs, l.mapM f = .ok bs) ↔ ∀ a ∈ l, ∃ b, f a = .ok b := by
  constructor
  · rintro ⟨bs, run⟩ a member
    obtain ⟨i, inside, rfl⟩ := List.mem_iff_getElem.mp member
    obtain ⟨b, here, _⟩ := mapM_at run (List.getElem?_eq_getElem inside)
    exact ⟨b, here⟩
  · intro each
    obtain ⟨bs, run, _⟩ := mapM_ok (R := fun _ _ => True) fun a member =>
      (each a member).imp fun _ here => ⟨here, trivial⟩
    exact ⟨bs, run⟩

/-- The experiment goes through when every round asks for no more keys than there are
    and meets only items that no later item, under another spelling of the same key,
    has overwritten. -/
theorem experiment_ok_iff (keccak : Keccak) {pyHash : Bytes → Int} {numKeys : Nat}
    {data : List (String × String)} (keys : (data.map Prod.fst).Nodup) {run : Run}
    (reads : List.Forall₂ Reads (data.take numKeys) run) (occupied : run ≠ [])
    (long : ∀ e ∈ run, 32 ≤ e.2.bytes.length)
    (distinct : Separates keccak.hash
      (storedEncodings (insertRun (keccakScheme keccak.hash) run).2))
    (apart : ∀ a ∈ storedEncodings (insertRun (keccakScheme keccak.hash) run).2,
      ∀ b ∈ storedEncodings (insertRun (keccakScheme keccak.hash) run).2, pyHash a = pyHash b → a = b)
    {rounds : List Round}
    (shuffled : ∀ r ∈ rounds, r.shuffledKeys.Perm ((data.take numKeys).map Prod.fst)) :
    (∃ sizes, runExperiment pyHash keccak.hash numKeys data rounds = .ok sizes) ↔
      ∀ r ∈ rounds, r.fits numKeys ∧
        ∀ x ∈ (data.take numKeys).zip run, x.1.1 ∈ r.keysToProve →
          lastInserted run x.2.1.bytes = some x.2.2.bytes := by
  have taken : ((data.take numKeys).map Prod.fst).Nodup :=
    (((List.take_sublist numKeys data).map Prod.fst).nodup keys)
  obtain ⟨pick, picked⟩ := items_picked reads taken occupied
  obtain ⟨ran, shown⟩ := keccak_run keccak long distinct
  have built : insertData (keccakScheme keccak.hash) (data.take numKeys) emptyTrie =
      (.ok (), (insertRun (keccakScheme keccak.hash) run).2) := by
    rw [insertData_run reads]
    exact Prod.ext ran rfl
  -- each key of a round is the first half of an item
  have item : ∀ r ∈ rounds, ∀ k ∈ r.keysToProve,
      ∃ e, (e, pick k) ∈ (data.take numKeys).zip run ∧ e.1 = k := by
    intro r member k proved
    have key := (shuffled r member).mem_iff.mp (List.mem_of_mem_take proved)
    rw [← List.map_fst_zip reads.length_eq.le, List.map_map] at key
    obtain ⟨x, inside, rfl⟩ := List.mem_map.mp key
    exact ⟨x.1, by rw [Function.comp_apply, picked x inside]; exact inside, rfl⟩
  have decoded {e : String × String} {b : ByteString × ByteString}
      (inside : (e, b) ∈ (data.take numKeys).zip run) : Reads e b :=
    (List.forall₂_iff_zip.mp reads).2 inside
  have nonempty : trieOf run.plain ≠ .empty := by
    obtain ⟨e, run, rfl⟩ := List.exists_cons_of_ne_nil occupied
    obtain ⟨v, last⟩ := @lastInserted_of_member (e :: run) e List.mem_cons_self
    intro hollow
    rw [← trieOf_lookup, hollow] at last
    cases last
  rw [runExperiment]
  simp only [built, bind, Except.bind]
  rw [rounds_ok]
  refine forall₂_congr fun r member => ?_
  rw [@runRound_ok keccak _ _ pyHash (good_run keccak distinct) shown nonempty apart _ _ _ pick]
  · refine and_congr_right fun _ => ?_
    rw [truthful, List.all_map, List.all_eq_true]
    constructor
    · intro truth x inside proved
      have holds := truth _ proved
      rw [Function.comp_apply, beq_iff_eq, trieOf_lookup, claimOf, picked x inside] at holds
      exact holds
    · intro current k proved
      obtain ⟨e, inside, rfl⟩ := item r member k proved
      rw [Function.comp_apply, beq_iff_eq, trieOf_lookup]
      exact current _ inside proved
  · intro k proved
    obtain ⟨e, inside, rfl⟩ := item r member k proved
    exact (decoded inside).1
  · intro k proved
    obtain ⟨e, inside, rfl⟩ := item r member k proved
    exact expectedValue_read taken (List.of_mem_zip inside).1 (decoded inside).2
      (long _ (List.of_mem_zip inside).2)
  · intro k proved
    obtain ⟨e, inside, rfl⟩ := item r member k proved
    rw [trieOf_lookup]
    obtain ⟨v, last⟩ := lastInserted_of_member (List.of_mem_zip inside).2
    rw [claimOf, last]
    exact Option.some_ne_none v

/- One key in two spellings, the second with another value. -/

def spellingKeccak : Keccak where
  hash b := toBytes 32 (([((nodeItem (.leaf (nibbles (sampleBytes 107)) (sampleBytes 97))).encode,
      0xf354ead2a2c186b7d6d5f9c8005f1c149c25b31e3a42977351847d0bab022e3e),
    ((nodeItem (.leaf (nibbles (sampleBytes 107)) (sampleBytes 98))).encode,
      0x7d3c34ffbd980d8a6e6c6ce28891c65a6395640ad7a558d349c4d1d25a770dbf)].lookup b).getD 0)
  size _ := toBytes_length 32 _

def spelled (start : String) (digits : List Char) : String :=
  start ++ String.ofList (List.replicate 32 digits).flatten

def spellings : List (String × String) :=
  [(spelled "0x" ['6', 'b'], spelled "0x" ['6', '1']), (spelled "" ['6', 'B'], spelled "" ['6', '2'])]

def spelledRun : Run :=
  [(sampleString 107, sampleString 97), (sampleString 107, sampleString 98)]

def spelledRounds (n : Nat) : List Round :=
  [⟨.merkle, 1, [spelled "" ['6', 'B'], spelled "0x" ['6', 'b']]⟩,
    ⟨.merkleOptimized, n, [spelled "" ['6', 'B'], spelled "0x" ['6', 'b']]⟩]

theorem experiment_ok_sample :
    (∃ sizes, runExperiment MerkleOptimized.samplePyHash spellingKeccak.hash 2 spellings
      (spelledRounds 1) = .ok sizes) ∧
    ¬ ∃ sizes, runExperiment MerkleOptimized.samplePyHash spellingKeccak.hash 2 spellings
      (spelledRounds 2) = .ok sizes := by
  have keys : (spellings.map Prod.fst).Nodup := by decide
  have reads : List.Forall₂ Reads (spellings.take 2) spelledRun := by decide +kernel
  have distinct : Separates spellingKeccak.hash
      (storedEncodings (insertRun (keccakScheme spellingKeccak.hash) spelledRun).2) := by
    decide +kernel
  have apart : ∀ a ∈ storedEncodings (insertRun (keccakScheme spellingKeccak.hash) spelledRun).2,
      ∀ b ∈ storedEncodings (insertRun (keccakScheme spellingKeccak.hash) spelledRun).2,
        MerkleOptimized.samplePyHash a = MerkleOptimized.samplePyHash b → a = b := by
    decide +kernel
  have shuffled (n : Nat) : ∀ r ∈ spelledRounds n,
      r.shuffledKeys.Perm ((spellings.take 2).map Prod.fst) := by
    simp [spelledRounds, spellings, List.Perm.swap]
  constructor
  · refine (experiment_ok_iff spellingKeccak keys reads (List.cons_ne_nil _ _) (by decide) distinct
      apart (shuffled 1)).mpr ?_
    decide
  · intro passed
    have current := (experiment_ok_iff spellingKeccak keys reads (List.cons_ne_nil _ _) (by decide)
      distinct apart (shuffled 2)).mp passed
    revert current
    decide

end ExperimentRuns
