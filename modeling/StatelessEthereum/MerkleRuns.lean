import StatelessEthereum.MerkleRefinement
import StatelessEthereum.TrieWalk

/- Runs of inserts on a trie that starts empty. The trie on disk stays the
   abstract one of the run, so it answers with the last value of a key and its
   root depends on nothing but these values. -/
namespace MerkleRuns
open PythonError BigEndian NibblePaths MerkleNodes MerkleForms StateEffect PutLog DiskLog CompactTrie
open TrieWalk
open MerkleTrees hiding insert get
open MerkleStorage MerkleRefinement
variable {scheme : Scheme} {limits : Limits} {codec : Codec scheme limits}

/-- The constructor on a directory without files. -/
def emptyTrie : MerklePatriciaTrie := openTrie ⟨[]⟩

def insertEach (scheme : Scheme) (secure : Bool) (run : List (Bytes × Bytes)) : TrieEffect Unit :=
  forEach (fun e => MerkleTrees.insert scheme secure e.1 e.2) run

/- The database grows, and every put is under the hash of what it puts. -/

structure Grows (scheme : Scheme) (s t : MerklePatriciaTrie) : Prop where
  db : s.disk.db.Extends t.disk.db
  addressed : (∀ p ∈ s.disk.db.puts, p.1 = scheme.hash p.2) →
    ∀ p ∈ t.disk.db.puts, p.1 = scheme.hash p.2

theorem grows_refl (scheme : Scheme) (s : MerklePatriciaTrie) : Grows scheme s s :=
  ⟨extends_refl _, id⟩

theorem grows_trans (scheme : Scheme) (s t u : MerklePatriciaTrie) (first : Grows scheme s t)
    (next : Grows scheme t u) : Grows scheme s u :=
  ⟨extends_trans first.db next.db, fun h => next.addressed (first.addressed h)⟩

theorem good_grows (scheme : Scheme) (limits : Limits) (s t : MerklePatriciaTrie)
    (moved : Grows scheme s t) (good : Good limits t) : Good limits s :=
  admissible_earlier moved.db good

theorem storeNode_grows (codec : Codec scheme limits) (node : Node) :
    Along (Grows scheme) (storeNode scheme node) := by
  refine storeNode_moves (grows_refl scheme) (fun node r e referred encoded whole s => ?_) node
  refine ⟨extends_put _ _ _, fun addressed p member => ?_⟩
  rcases List.mem_cons.mp member with rfl | older
  · exact codec.addressed node r e referred encoded whole
  · exact addressed p older

theorem same_db_grows {f : MerklePatriciaTrie → MerklePatriciaTrie}
    (same : ∀ s, (f s).disk.db = s.disk.db) : Along (Grows scheme) (modify f : TrieEffect Unit) := by
  intro s
  simp only [modify_run]
  exact ⟨by rw [same]; exact extends_refl _, by rw [same]; exact id⟩

theorem insert_grows (codec : Codec scheme limits) (secure : Bool) (key value : Bytes) :
    Along (Grows scheme) (MerkleTrees.insert scheme secure key value) := by
  have refl := grows_refl scheme
  have trans := grows_trans scheme
  unfold MerkleTrees.insert
  refine along_bind trans (along_lift refl _) fun path => ?_
  refine along_bind trans (along_reads refl _) fun root => ?_
  refine along_bind trans (along_update refl trans (storeNode_grows codec) _ _ _ _) fun r => ?_
  refine along_bind trans (same_db_grows fun _ => rfl) fun _ => ?_
  refine along_bind trans (same_db_grows fun _ => rfl) fun _ => ?_
  exact along_bind trans (same_db_grows fun _ => rfl) fun _ => same_db_grows fun _ => rfl

/- The abstract trie of a state. -/

variable (codec) in
def rootOf (t : NibbleTrie) : Option Bytes :=
  match t with
  | .empty => none
  | t => some (refOf codec t)

variable (codec) in
structure Represents (t : NibbleTrie) (s : MerklePatriciaTrie) : Prop where
  valid : Valid limits t
  written : Written codec s.disk.db t
  rootRef : s.rootRef = rootOf codec t
  rootFile : s.disk.rootFile = rootOf codec t
  rootValue : s.rootValue = rootOf codec t

variable (codec) in
theorem rootOf_occupied {t : NibbleTrie} (occupied : t ≠ .empty) :
    rootOf codec t = some (refOf codec t) := by
  cases t with
  | empty => exact absurd rfl occupied
  | _ => rfl

variable (codec) in
theorem represents_empty : Represents codec .empty emptyTrie :=
  ⟨⟨trivial, trivial⟩, .empty, rfl, rfl, rfl⟩

/-- Reopening from the disk gives the live object again. -/
theorem represents_reopen {t : NibbleTrie} {s : MerklePatriciaTrie} (shown : Represents codec t s) :
    openTrie s.disk = s := by
  cases s with
  | mk disk rootRef rootValue =>
    have file : disk.rootFile = rootOf codec t := shown.rootFile
    have ref : rootRef = rootOf codec t := shown.rootRef
    have value : rootValue = rootOf codec t := shown.rootValue
    rw [openTrie, file, ref, value]

theorem keyPath_plain (scheme : Scheme) (key : Bytes) :
    ∃ path, keyPath scheme false key = .ok path ∧ path.width = 16 ∧ path.remaining = nibbles key :=
  ofBytes_hex key 0

theorem update_root {t : NibbleTrie} (valid : Valid limits t) (depth : Nat) (path : NibblePath)
    {value : Bytes} (s : MerklePatriciaTrie) (stored : Written codec s.disk.db t)
    (width : path.width = 16) (pathOk : limits.PathOk path.remaining)
    (valueOk : limits.ValueOk value) (deep : path.len < depth) :
    Yields codec (update scheme depth (asReference (rootOf codec t)) path value) s
      (CompactTrie.insert t path.remaining value) := by
  have known := update_insert valid depth path s stored width pathOk valueOk deep
  by_cases occupied : t = .empty
  · subst occupied
    obtain ⟨depth, rfl⟩ := Nat.exists_eq_add_of_lt deep
    exact known
  · rw [rootOf_occupied codec occupied]
    exact known

theorem insert_represents {t : NibbleTrie} {s : MerklePatriciaTrie} (shown : Represents codec t s)
    {key value : Bytes} (pathOk : limits.PathOk (nibbles key)) (valueOk : limits.ValueOk value) :
    Ensures (Good limits) (MerkleTrees.insert scheme false key value) s fun _ s' =>
      Represents codec (CompactTrie.insert t (nibbles key) value) s' := by
  obtain ⟨path, parsed, width, digits⟩ := keyPath_plain scheme key
  have refl := grows_refl scheme
  have trans := grows_trans scheme
  rw [← digits] at pathOk ⊢
  have occupied := insert_ne_empty t path.remaining value
  refine ensures_bind_lift parsed (ensures_bind_reads rfl ?_)
  rw [shown.rootRef]
  refine ensures_bind (good_grows scheme limits)
    (along_update refl trans (storeNode_grows codec) _ _ _ _) (fun r => ?_)
    (update_root shown.valid _ path s shown.written width pathOk valueOk (by omega)) ?_
  · refine along_bind trans (same_db_grows fun _ => rfl) fun _ => ?_
    refine along_bind trans (same_db_grows fun _ => rfl) fun _ => ?_
    exact along_bind trans (same_db_grows fun _ => rfl) fun _ => same_db_grows fun _ => rfl
  · rintro _ s' _ ⟨rfl, written⟩
    have root := rootOf_occupied codec occupied
    refine ensures_bind_modify (ensures_bind_modify (ensures_bind_modify (ensures_modify ?_)))
    exact ⟨insert_valid shown.valid pathOk valueOk, written, root.symm, root.symm, root.symm⟩

/-- The path and the value of an insert are ones the format is meant for. -/
def EntryOk (limits : Limits) (e : Bytes × Bytes) : Prop :=
  limits.PathOk (nibbles e.1) ∧ limits.ValueOk e.2

def trieOf (run : List (Bytes × Bytes)) : NibbleTrie :=
  CompactTrie.insertAll .empty (run.map fun e => (nibbles e.1, e.2))

variable (codec) in
theorem run_represents (run : List (Bytes × Bytes)) (entries : ∀ e ∈ run, EntryOk limits e)
    (good : Good limits (insertEach scheme false run emptyTrie).2) :
    (insertEach scheme false run emptyTrie).1 = .ok () ∧
      Represents codec (trieOf run) (insertEach scheme false run emptyTrie).2 := by
  have moves (e : Bytes × Bytes) : Along (Grows scheme) (MerkleTrees.insert scheme false e.1 e.2) :=
    insert_grows codec false e.1 e.2
  have kept := ensures_forEach (good_grows scheme limits) (grows_refl scheme) (grows_trans scheme)
    moves (fun done s => Represents codec (trieOf done) s) run
    (fun done e s member shown => by
      have next := insert_represents shown (entries e member).1 (entries e member).2
      simpa [trieOf, CompactTrie.insertAll] using next)
    [] emptyTrie (represents_empty codec) good
  obtain ⟨_, fine, shown⟩ := kept
  exact ⟨fine, shown⟩

/-- Reading: `_get` walks as in the abstract trie. -/
theorem getFrom_walk {db : Store Bytes Bytes} (good : Admissible limits db) {t : NibbleTrie}
    (valid : Valid limits t) (occupied : t ≠ .empty) (stored : Written codec db t) (depth : Nat)
    (path : NibblePath) (wide : path.width = 16) (deep : path.len < depth) :
    match walk t path.remaining with
    | some u => ∃ node, getFrom scheme db depth (.bytes (refOf codec t)) path = .ok node ∧
        Shows node (formOf codec u)
    | none => ∃ message,
        getFrom scheme db depth (.bytes (refOf codec t)) path = .error (.keyError message) := by
  induction t generalizing depth path with
  | empty => exact absurd rfl occupied
  | leaf p w =>
    obtain ⟨depth, rfl⟩ := Nat.exists_eq_add_of_lt deep
    obtain ⟨node, loaded, shows⟩ := getNode_trie good valid stored (by simp)
    cases node <;> simp only [formOf, Shows] at shows
    rename_i nodePath data
    obtain ⟨width, rfl, rfl⟩ := shows
    by_cases none : path.remaining = []
    · have no : path.len = 0 := (NibblePath.len_eq_zero_iff path).mpr none
      simp only [walk, none, true_or, ↓reduceIte]
      refine ⟨.leaf nodePath (.bytes w), ?_, width, rfl, rfl⟩
      simp only [getFrom, loaded, no, bind, Except.bind, ↓reduceIte]
    · have more : path.len ≠ 0 := fun zero => none ((NibblePath.len_eq_zero_iff path).mp zero)
      by_cases same : nodePath.remaining = path.remaining
      · have equal := (NibblePath.eq_iff nodePath path).mpr same
        rw [walk, if_pos (Or.inr same)]
        refine ⟨.leaf nodePath (.bytes w), ?_, width, rfl, rfl⟩
        simp only [getFrom, loaded, more, equal, bind, Except.bind, ↓reduceIte]
      · have differ : nodePath.eq path = false :=
          Bool.eq_false_iff.mpr fun h => same ((NibblePath.eq_iff nodePath path).mp h)
        simp only [walk, none, same, or_self, ↓reduceIte]
        refine ⟨"Key not found in MPT", ?_⟩
        simp only [getFrom, loaded, more, differ, bind, Except.bind, Bool.false_eq_true, ↓reduceIte]
  | ext p t ih =>
    obtain ⟨depth, rfl⟩ := Nat.exists_eq_add_of_lt deep
    obtain ⟨node, loaded, shows⟩ := getNode_trie good valid stored (by simp)
    cases node <;> simp only [formOf, Shows] at shows
    rename_i nodePath nextRef
    obtain ⟨width, rfl, rfl⟩ := shows
    by_cases none : path.remaining = []
    · have no : path.len = 0 := (NibblePath.len_eq_zero_iff path).mpr none
      simp only [walk, none, ↓reduceIte]
      refine ⟨.extension nodePath (.bytes (refOf codec t)), ?_, width, rfl, rfl⟩
      simp only [getFrom, loaded, no, bind, Except.bind, ↓reduceIte]
    · have more : path.len ≠ 0 := fun zero => none ((NibblePath.len_eq_zero_iff path).mp zero)
      by_cases covered : nodePath.remaining <+: path.remaining
      · have starts := (NibblePath.startsWith_iff path nodePath).mpr covered
        obtain ⟨some, fits⟩ := ext_covers valid covered
        have walked := ih (valid_child valid .ext) (below_ext valid) (written_child stored .ext)
          (path.len + depth) (path.consume nodePath.len) wide
          (by rw [NibblePath.len_consume]; omega)
        simp only [NibblePath.remaining_consume] at walked
        simp only [walk, none, covered, ↓reduceIte, NibblePath.remaining_length]
        simp only [getFrom, loaded, more, starts, bind, Except.bind, ↓reduceIte]
        exact walked
      · have aside : path.startsWith nodePath = false :=
          Bool.eq_false_iff.mpr fun h => covered ((NibblePath.startsWith_iff path nodePath).mp h)
        simp only [walk, none, covered, ↓reduceIte]
        refine ⟨"Key not found in MPT", ?_⟩
        simp only [getFrom, loaded, more, aside, bind, Except.bind, Bool.false_eq_true, ↓reduceIte]
  | branch cs w ih =>
    obtain ⟨depth, rfl⟩ := Nat.exists_eq_add_of_lt deep
    obtain ⟨node, loaded, shows⟩ := getNode_trie good valid stored (by simp)
    cases node <;> simp only [formOf, Shows] at shows
    rename_i branches data
    obtain ⟨rfl, rfl⟩ := shows_branch_inv shows
    cases shape : path.remaining with
    | nil =>
      have none : path.len = 0 := (NibblePath.len_eq_zero_iff path).mpr shape
      refine ⟨.branch (slotsOf codec cs) (.bytes (w.getD [])), ?_, shows_branch cs w⟩
      simp only [getFrom, loaded, none, bind, Except.bind, ↓reduceIte]
    | cons i rest =>
      obtain ⟨size, digit, tail⟩ := path_cons shape
      have more : path.len ≠ 0 := by omega
      have inside : i < 16 := by
        have digits := path.remaining_valid i (by rw [shape]; exact List.mem_cons_self)
        rwa [wide] at digits
      by_cases gone : cs i = .empty
      · simp only [walk, gone]
        have hollow : (refOf codec (cs i)).length = 0 := by
          rw [gone]
          rfl
        refine ⟨"Key not found in MPT", ?_⟩
        simp only [getFrom, loaded, more, digit, entry_slotsOf inside, PyObj.len, hollow,
          Nat.lt_irrefl, bind, Except.bind, ↓reduceIte]
      · have walked := ih i (valid_child valid (.slot i)) gone (written_child stored (.slot i))
          (path.len + depth) (path.consume 1) wide (by rw [NibblePath.len_consume]; omega)
        rw [tail] at walked
        have whole := refOf_length codec gone
        simp only [walk]
        simp only [getFrom, loaded, more, digit, entry_slotsOf inside, PyObj.len, whole, bind,
          Except.bind, ↓reduceIte, Nat.zero_lt_succ]
        exact walked

/-- The `data` of the node where a walk ends. -/
theorem nodeData_shows {node : Node} {u : NibbleTrie} (shows : Shows node (formOf codec u)) {v : Bytes}
    (value : held u = some v) (message : String) : nodeData message node = .ok (.bytes v) := by
  cases u <;> cases node <;> simp only [formOf, Shows, held, reduceCtorEq, Option.some.injEq] at shows value
  · rw [shows.2.2, value]
    rfl
  · rw [shows.2, value]
    rfl

theorem getFrom_lookup {db : Store Bytes Bytes} (good : Admissible limits db) {t : NibbleTrie}
    (valid : Valid limits t) (stored : Written codec db t) (depth : Nat) (path : NibblePath)
    (wide : path.width = 16) {v : Bytes} (found : lookup t path.remaining = some v)
    (deep : path.len < depth) : ∃ node, getFrom scheme db depth (.bytes (refOf codec t)) path = .ok node ∧
      ∀ message, nodeData message node = .ok (.bytes v) := by
  obtain ⟨u, ended, value⟩ := walk_lookup valid.canonical found
  have walked := getFrom_walk good valid (lookup_occupied found) stored depth path wide deep
  rw [ended] at walked
  obtain ⟨node, read, shows⟩ := walked
  exact ⟨node, read, nodeData_shows shows value⟩

theorem get_lookup {t : NibbleTrie} {s : MerklePatriciaTrie} (shown : Represents codec t s)
    (good : Good limits s) {key v : Bytes} (found : lookup t (nibbles key) = some v) :
    MerkleTrees.get scheme false s key = .ok (.bytes v) := by
  obtain ⟨path, parsed, wide, digits⟩ := keyPath_plain scheme key
  have occupied := lookup_occupied found
  have root := shown.rootRef.trans (rootOf_occupied codec occupied)
  obtain ⟨node, walked, data⟩ := getFrom_lookup good shown.valid shown.written (path.len + 1) path
    wide (by rw [digits]; exact found) (Nat.lt_succ_self _)
  simp only [MerkleTrees.get, root, parsed, walked, data, bind, Except.bind]

/- Runs of byte strings. -/

abbrev Run := List (ByteString × ByteString)

def Run.plain (run : Run) : List (Bytes × Bytes) := run.map fun e => (e.1.bytes, e.2.bytes)

/-- The calls of `insert` on a trie that starts empty, with `secure=False`. -/
def insertRun (scheme : Scheme) (run : Run) : Except PyError Unit × MerklePatriciaTrie :=
  insertEach scheme false run.plain emptyTrie

def lastInserted (run : Run) (key : Bytes) : Option Bytes :=
  (run.reverse.find? fun e => e.1.bytes == key).map fun e => e.2.bytes

def storedEncodings (s : MerklePatriciaTrie) : List Bytes := s.disk.db.puts.map Prod.snd

/-- Distinct encodings have distinct digests. -/
def Separates (hash : Bytes → Bytes) (encodings : List Bytes) : Prop :=
  ∀ a ∈ encodings, ∀ b ∈ encodings, hash a = hash b → a = b

instance (hash : Bytes → Bytes) (encodings : List Bytes) : Decidable (Separates hash encodings) :=
  inferInstanceAs (Decidable (∀ a ∈ encodings, ∀ b ∈ encodings, hash a = hash b → a = b))

theorem separates_subset {hash : Bytes → Bytes} {few many : List Bytes} (part : few ⊆ many)
    (distinct : Separates hash many) : Separates hash few := fun a ha b hb same =>
  distinct a (part ha) b (part hb) same

theorem trieOf_lookup (run : Run) (key : Bytes) :
    lookup (trieOf run.plain) (nibbles key) = lastInserted run key := by
  have folded (old : Option Bytes) : lastValue (fun _ => old)
      (run.plain.map fun e => (nibbles e.1, e.2)) (nibbles key) =
        (lastInserted run key).or old := by
    induction run using List.reverseRecOn with
    | nil => rfl
    | append_singleton run e ih =>
      simp only [lastValue, Run.plain, List.map_append, List.map_cons, List.map_nil,
        List.foldl_append, List.foldl_cons, List.foldl_nil, lastInserted, List.reverse_append,
        List.reverse_cons, List.reverse_nil, List.nil_append, List.singleton_append,
        List.find?_cons] at ih ⊢
      by_cases same : e.1.bytes = key
      · simp [same]
      · have apart : nibbles key ≠ nibbles e.1.bytes := fun h => same (nibbles_injective h).symm
        have off : (e.1.bytes == key) = false := by simpa using same
        rw [if_neg apart, ih, off]
  have whole := lookup_insertAll .empty (run.plain.map fun e => (nibbles e.1, e.2)) (nibbles key)
  rw [trieOf, whole]
  have start : lookup (.empty : NibbleTrie) = fun _ => none := by
    funext k
    rfl
  rw [start, folded]
  simp

theorem lastInserted_of_member {run : Run} {e : ByteString × ByteString} (member : e ∈ run) :
    ∃ v, lastInserted run e.1.bytes = some v := by
  cases found : run.reverse.find? fun x => x.1.bytes == e.1.bytes with
  | none =>
    have absent := List.find?_eq_none.mp found e (by simpa using member)
    simp at absent
  | some last => exact ⟨last.2.bytes, by simp [lastInserted, found]⟩

theorem member_of_lastInserted {run : Run} {key v : Bytes} (last : lastInserted run key = some v) :
    ∃ e ∈ run, e.1.bytes = key := by
  obtain ⟨e, found, _⟩ := Option.map_eq_some_iff.mp last
  have same := List.find?_some found
  exact ⟨e, List.mem_reverse.mp (List.mem_of_find?_eq_some found), by simpa using same⟩

/- The keccak trie. -/
section KeccakTrie
variable (keccak : Keccak)

theorem entryOk_keccak {run : Run} (long : ∀ e ∈ run, 32 ≤ e.2.bytes.length) :
    ∀ e ∈ run.plain, EntryOk keccakLimits e := by
  intro e member
  obtain ⟨entry, inside, rfl⟩ := List.mem_map.mp member
  have size := entry.1.fits
  refine ⟨⟨nibbles_lt _, ?_⟩, long entry inside, entry.2.fits⟩
  simp only [nibbles_length]
  omega

theorem addressed_run (run : Run) :
    ∀ p ∈ (insertRun (keccakScheme keccak.hash) run).2.disk.db.puts, p.1 = keccak.hash p.2 := by
  have moves (e : Bytes × Bytes) :
      Along (Grows (keccakScheme keccak.hash)) (MerkleTrees.insert _ false e.1 e.2) :=
    insert_grows (keccakCodec keccak) false e.1 e.2
  have moved := along_forEach (grows_refl _) (grows_trans _) moves run.plain emptyTrie
  exact moved.addressed (by simp [emptyTrie, openTrie, Disk.db])

theorem good_run {run : Run} (distinct : Separates keccak.hash
      (storedEncodings (insertRun (keccakScheme keccak.hash) run).2)) :
    Good keccakLimits (insertRun (keccakScheme keccak.hash) run).2 := by
  have addressed := addressed_run keccak run
  refine ⟨consistent_of_digest keccak.hash addressed distinct, fun p member => ?_⟩
  rw [addressed p member]
  exact keccak.size p.2

/-- The whole of a run: it returns normally and its trie is on disk. -/
theorem keccak_run {run : Run} (long : ∀ e ∈ run, 32 ≤ e.2.bytes.length)
    (distinct : Separates keccak.hash
      (storedEncodings (insertRun (keccakScheme keccak.hash) run).2)) :
    (insertRun (keccakScheme keccak.hash) run).1 = .ok () ∧
      Represents (keccakCodec keccak) (trieOf run.plain)
        (insertRun (keccakScheme keccak.hash) run).2 :=
  run_represents (keccakCodec keccak) run.plain (entryOk_keccak long) (good_run keccak distinct)

/-- The trie is a map: each inserted key reads as its last value, on the live
    object and after reopening from disk. -/
theorem get_last_inserted (run : Run) (long : ∀ e ∈ run, 32 ≤ e.2.bytes.length)
    (distinct : Separates keccak.hash
      (storedEncodings (insertRun (keccakScheme keccak.hash) run).2)) :
    let scheme := keccakScheme keccak.hash
    let out := insertRun scheme run
    out.1 = .ok () ∧ ∀ e ∈ run, ∃ v, lastInserted run e.1.bytes = some v ∧
      MerkleTrees.get scheme false out.2 e.1.bytes = .ok (.bytes v) ∧
      MerkleTrees.get scheme false (openTrie out.2.disk) e.1.bytes = .ok (.bytes v) := by
  obtain ⟨fine, shown⟩ := keccak_run keccak long distinct
  refine ⟨fine, fun e member => ?_⟩
  obtain ⟨v, last⟩ := lastInserted_of_member member
  have read := get_lookup shown (good_run keccak distinct) ((trieOf_lookup run _).trans last)
  refine ⟨v, last, read, ?_⟩
  rw [represents_reopen shown]
  exact read

/- A sample: a key, one that it is a prefix of, and the first one again. -/

def sampleBytes (letter : UInt8) : Bytes := List.replicate 32 letter

def sampleString (letter : UInt8) : ByteString where
  bytes := sampleBytes letter
  fits := by
    rw [sampleBytes, List.length_replicate]
    decide

/-- Slot 3 of the branch below the shared path. -/
def sampleBranch (value : Bytes) : Form :=
  .branch ((List.replicate 16 []).set 3
    (toBytes 32 0xf05881c514f4a038abab51239a763c9f5a50d97655c8a5ab3a0b3e24d4d25b0c)) value

def sampleDigests : List (Bytes × Nat) :=
  [(.leaf [1, 2] (sampleBytes 97),
      0xaf73c6ae3f33aece97690caf4ea31dd5cfd95c8fac22c2e9f6c53d4813219b71),
    (.leaf [1, 2, 3, 4] (sampleBytes 98),
      0x23d465158da184800b2c488ef8c7b5d434fb748ccd910a074cf877f6969d232),
    (.leaf [4] (sampleBytes 98),
      0xf05881c514f4a038abab51239a763c9f5a50d97655c8a5ab3a0b3e24d4d25b0c),
    (sampleBranch (sampleBytes 97),
      0x2c46f5308120ed29ada5219016269a4247dc01fa01b5b97769c5e5747659b9db),
    (.ext [1, 2] (toBytes 32 0x2c46f5308120ed29ada5219016269a4247dc01fa01b5b97769c5e5747659b9db),
      0xb9a205f8c63418d160b1c915087153a43deddb9a717b025b9d82a3629f0b524d),
    (sampleBranch (sampleBytes 99),
      0x5f6a736ff254071f38353b28318f635e82a2ec2fcc0061494f404b138558ca13),
    (.ext [1, 2] (toBytes 32 0x5f6a736ff254071f38353b28318f635e82a2ec2fcc0061494f404b138558ca13),
      0x944fb2e9a364bf0ca1ba4cb3442460bc03a1eeb579946a3725dd9027609a2d88),
    (.leaf (nibbles (sampleBytes 107)) (sampleBytes 97),
      0xf354ead2a2c186b7d6d5f9c8005f1c149c25b31e3a42977351847d0bab022e3e)].map
    fun e => ((nodeItem e.1).encode, e.2)

def sampleKeccak : Keccak where
  hash b := toBytes 32 ((sampleDigests.lookup b).getD 0)
  size _ := toBytes_length 32 _

/-- A digest for samples that all bytes count in. -/
def spreadKeccak : Keccak where
  hash b := toBytes 32 ((b.length + BigEndian.ofBytes b * 256) % (2 ^ 255 - 19))
  size _ := toBytes_length 32 _

def sampleRun : Run :=
  [(⟨[0x12], by decide⟩, sampleString 97),
    (⟨[0x12, 0x34], by decide⟩, sampleString 98),
    (⟨[0x12], by decide⟩, sampleString 99)]

theorem get_last_inserted_sample :
    let scheme := keccakScheme sampleKeccak.hash
    let out := insertRun scheme sampleRun
    out.1 = .ok () ∧ ∀ e ∈ sampleRun, ∃ v, lastInserted sampleRun e.1.bytes = some v ∧
      MerkleTrees.get scheme false out.2 e.1.bytes = .ok (.bytes v) ∧
      MerkleTrees.get scheme false (openTrie out.2.disk) e.1.bytes = .ok (.bytes v) :=
  get_last_inserted sampleKeccak sampleRun (by decide) (by decide +kernel)

theorem trieOf_absent (run : Run) {k : List Nat} (odd : ¬ ∃ key, k = nibbles key) :
    lookup (trieOf run.plain) k = none := by
  rw [trieOf, lookup_insertAll]
  induction run with
  | nil => rfl
  | cons e run ih =>
    have apart : k ≠ nibbles e.1.bytes := fun h => odd ⟨_, h⟩
    simp only [lastValue, Run.plain, List.map_cons, List.foldl_cons, apart, ↓reduceIte] at ih ⊢
    exact ih

theorem trieOf_lengths {run : Run} {size : Nat} (keys : ∀ e ∈ run, e.1.bytes.length = size)
    {k : List Nat} {v : Bytes} (found : lookup (trieOf run.plain) k = some v) :
    k.length = 2 * size := by
  by_cases known : ∃ key, k = nibbles key
  · obtain ⟨key, rfl⟩ := known
    rw [trieOf_lookup] at found
    obtain ⟨e, member, rfl⟩ := member_of_lastInserted found
    rw [nibbles_length, keys e member]
  · rw [trieOf_absent run known] at found
    cases found

theorem trieOf_same {run run' : Run}
    (same : ∀ key, lastInserted run key = lastInserted run' key) (k : List Nat) :
    lookup (trieOf run.plain) k = lookup (trieOf run'.plain) k := by
  by_cases whole : ∃ key, k = nibbles key
  · obtain ⟨key, rfl⟩ := whole
    rw [trieOf_lookup, trieOf_lookup, same]
  · rw [trieOf_absent run whole, trieOf_absent run' whole]

/-- The root reference is a function of the last values alone. -/
theorem root_canonical (run run' : Run) (long : ∀ e ∈ run, 32 ≤ e.2.bytes.length)
    (long' : ∀ e ∈ run', 32 ≤ e.2.bytes.length)
    (distinct : Separates keccak.hash
      (storedEncodings (insertRun (keccakScheme keccak.hash) run).2))
    (distinct' : Separates keccak.hash
      (storedEncodings (insertRun (keccakScheme keccak.hash) run').2))
    (same : ∀ key, lastInserted run key = lastInserted run' key) :
    let scheme := keccakScheme keccak.hash
    (insertRun scheme run).2.rootRef = (insertRun scheme run').2.rootRef ∧
      rootHash scheme (insertRun scheme run).2 = rootHash scheme (insertRun scheme run').2 := by
  obtain ⟨_, shown⟩ := keccak_run keccak long distinct
  obtain ⟨_, shown'⟩ := keccak_run keccak long' distinct'
  have equal := canonical_unique _ _ shown.valid.canonical shown'.valid.canonical (trieOf_same same)
  have refs : (insertRun (keccakScheme keccak.hash) run).2.rootRef =
      (insertRun (keccakScheme keccak.hash) run').2.rootRef := by
    rw [shown.rootRef, shown'.rootRef, equal]
  exact ⟨refs, by rw [rootHash, rootHash, refs]⟩

/-- The sample's last values, inserted once each and in the other order. -/
def otherRun : Run :=
  [(⟨[0x12, 0x34], by decide⟩, sampleString 98),
    (⟨[0x12], by decide⟩, sampleString 99)]

theorem sample_last_values (key : Bytes) : lastInserted sampleRun key = lastInserted otherRun key := by
  by_cases same : [0x12] = key <;>
    simp [lastInserted, sampleRun, otherRun, List.find?_cons, same]

theorem root_canonical_sample :
    let scheme := keccakScheme sampleKeccak.hash
    (insertRun scheme sampleRun).2.rootRef = (insertRun scheme otherRun).2.rootRef ∧
      rootHash scheme (insertRun scheme sampleRun).2 =
        rootHash scheme (insertRun scheme otherRun).2 :=
  root_canonical sampleKeccak sampleRun otherRun (by decide) (by decide) (by decide +kernel)
    (by decide +kernel) sample_last_values

end KeccakTrie

end MerkleRuns
