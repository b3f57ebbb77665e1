import StatelessEthereum.DiskSessions
import StatelessEthereum.MerkleAbsence
import StatelessEthereum.MerkleSoundness

/- A Merkle trie over many processes, and the clients that know no more of it than a
   root it once had. -/
namespace MerkleSessions
open PythonError BigEndian NibblePaths MerkleNodes MerkleForms StateEffect PutLog DiskLog CompactTrie
open CrashRecovery DiskSessions TrieWalk MerkleVerifiers
open MerkleTrees hiding insert get
open MerkleStorage MerkleRefinement MerkleRuns MerkleAbsence MerkleCollect MerkleCompleteness
open MerkleSoundness
variable {scheme : Scheme} {limits : Limits} {codec : Codec scheme limits} {secure : Bool}

/-- The key as the trie uses it; secure mode hashes it. -/
def pathKey (scheme : Scheme) (secure : Bool) (key : Bytes) : Bytes :=
  if secure then scheme.hash key else key

/-- A key and a value that the node format is meant for. -/
structure Entry (scheme : Scheme) (limits : Limits) (secure : Bool) where
  key : Bytes
  value : Bytes
  ok : EntryOk limits (pathKey scheme secure key, value)

def pathEntries (run : List (Entry scheme limits secure)) : List (Bytes × Bytes) :=
  run.map fun e => (pathKey scheme secure e.key, e.value)

/-- The value of the last insert under a key. -/
def lastKept (run : List (Entry scheme limits secure)) (key : Bytes) : Option Bytes :=
  (run.reverse.find? fun e => pathKey scheme secure e.key == pathKey scheme secure key).map
    Entry.value

/-- The trie as `insert` leaves it, and the constructor. -/
def trieKeeper (codec : Codec scheme limits) (secure : Bool) :
    Keeper MerklePatriciaTrie (Entry scheme limits secure) where
  empty := emptyTrie
  disk := MerklePatriciaTrie.disk
  insert e t := (MerkleTrees.insert scheme secure e.key e.value t).2
  opens d t := t = openTrie d
  opened_disk := by
    rintro d _ rfl
    rfl
  insert_grows e t := (insert_grows codec secure e.key e.value t).db

/- Secure mode is the plain mode under other keys. -/

theorem get_pathKey (t : MerklePatriciaTrie) (key : Bytes) : MerkleTrees.get scheme secure t key =
    MerkleTrees.get scheme false t (pathKey scheme secure key) := rfl

theorem getProofTree_pathKey (t : MerklePatriciaTrie) (key : Bytes) :
    getProofTree scheme secure t key =
      getProofTree scheme false t (pathKey scheme secure key) := rfl

/- The abstract trie of the inserts. -/

theorem trieOf_append (ops : List (Bytes × Bytes)) (e : Bytes × Bytes) :
    trieOf (ops ++ [e]) = CompactTrie.insert (trieOf ops) (nibbles e.1) e.2 := by
  simp [trieOf, CompactTrie.insertAll]

theorem trieOf_last (ops : List (Bytes × Bytes)) (key : Bytes) :
    lookup (trieOf ops) (nibbles key) = (ops.reverse.find? fun e => e.1 == key).map Prod.snd := by
  induction ops using List.reverseRecOn with
  | nil => rfl
  | append_singleton ops e ih =>
    rw [trieOf_append, lookup_insert, List.reverse_append, List.reverse_singleton,
      List.singleton_append, List.find?_cons]
    by_cases same : e.1 = key
    · rw [if_pos (by rw [same]), beq_iff_eq.mpr same]
      rfl
    · have apart : nibbles key ≠ nibbles e.1 := fun h => same (nibbles_injective h).symm
      rw [if_neg apart, beq_false_of_ne same]
      exact ih

theorem trieOf_outside (ops : List (Bytes × Bytes)) {k : List Nat}
    (odd : ¬ ∃ e ∈ ops, k = nibbles e.1) : lookup (trieOf ops) k = none := by
  induction ops using List.reverseRecOn with
  | nil => rfl
  | append_singleton ops e ih =>
    rw [trieOf_append, lookup_insert, if_neg fun h => odd ⟨e, by simp, h⟩]
    exact ih fun ⟨e', member, h⟩ => odd ⟨e', List.mem_append_left _ member, h⟩

theorem kept_lookup (run : List (Entry scheme limits secure)) (key : Bytes) :
    lookup (trieOf (pathEntries run)) (nibbles (pathKey scheme secure key)) = lastKept run key := by
  rw [trieOf_last, pathEntries, lastKept, ← List.map_reverse, List.find?_map, Option.map_map]
  rfl

theorem kept_member {run : List (Entry scheme limits secure)} {k : List Nat} {v : Bytes}
    (found : lookup (trieOf (pathEntries run)) k = some v) :
    ∃ e ∈ run, k = nibbles (pathKey scheme secure e.key) := by
  by_contra outside
  have none : lookup (trieOf (pathEntries run)) k = none := by
    refine trieOf_outside _ ?_
    rintro ⟨_, member, same⟩
    obtain ⟨e, inside, rfl⟩ := List.mem_map.mp member
    exact outside ⟨e, inside, same⟩
  rw [none] at found
  cases found

theorem kept_occupied {run : List (Entry scheme limits secure)} (some : run ≠ []) :
    trieOf (pathEntries run) ≠ .empty := by
  rw [← List.dropLast_append_getLast some, pathEntries, List.map_append, List.map_singleton,
    trieOf_append]
  exact insert_ne_empty _ _ _

/- One insert. -/

/-- The file of the root can also be empty, as a stop can leave it. -/
theorem insert_rooted {T : NibbleTrie} {t : MerklePatriciaTrie} (valid : Valid limits T)
    (written : Written codec t.disk.db T)
    (root : t.rootRef = rootOf codec T ∨ T = .empty ∧ t.rootRef = some [])
    {key value : Bytes} (ok : EntryOk limits (key, value)) :
    Ensures (Good limits) (MerkleTrees.insert scheme false key value) t fun _ t' =>
      Represents codec (CompactTrie.insert T (nibbles key) value) t' := by
  obtain ⟨path, parsed, width, digits⟩ := keyPath_plain scheme key
  have pathOk : limits.PathOk path.remaining := by
    rw [digits]
    exact ok.1
  have update : Yields codec (update scheme (path.len + 1) (asReference t.rootRef) path value) t
      (CompactTrie.insert T path.remaining value) := by
    rcases root with root | ⟨rfl, root⟩
    · rw [root]
      exact update_root valid _ path t written width pathOk ok.2 (Nat.lt_succ_self _)
    · rw [root]
      exact update_insert valid _ path t written width pathOk ok.2 (Nat.lt_succ_self _)
  have refl := grows_refl scheme
  have trans := grows_trans scheme
  rw [digits] at update
  refine ensures_bind_lift parsed (ensures_bind_reads rfl ?_)
  refine ensures_bind (good_grows scheme limits)
    (along_update refl trans (storeNode_grows codec) _ _ _ _) (fun r => ?_) update ?_
  · refine along_bind trans (same_db_grows fun _ => rfl) fun _ => ?_
    refine along_bind trans (same_db_grows fun _ => rfl) fun _ => ?_
    exact along_bind trans (same_db_grows fun _ => rfl) fun _ => same_db_grows fun _ => rfl
  · rintro _ t' _ ⟨rfl, written'⟩
    have new := rootOf_occupied codec (insert_ne_empty T (nibbles key) value)
    refine ensures_bind_modify (ensures_bind_modify (ensures_bind_modify (ensures_modify ?_)))
    refine ⟨insert_valid valid ?_ ok.2, written', new.symm, new.symm, new.symm⟩
    rwa [digits] at pathOk

/-- An insert stores nodes, empties the file of the root and writes the new reference, or
    it stores nodes and raises. -/
theorem insert_writes (key value : Bytes) (t : MerklePatriciaTrie) :
    let after := MerkleTrees.insert scheme secure key value t
    (∃ d r, Adds t.disk d ∧ after.2.disk = (d.apply .truncateRoot).apply (.writeRoot r)) ∨
      Adds t.disk after.2.disk ∧ after.1 ≠ .ok () := by
  intro after
  cases parsed : keyPath scheme secure key with
  | error e =>
    have same : after = (.error e, t) := by
      simp only [after, MerkleTrees.insert, parsed, bind_run, lift_run]
    rw [same]
    refine Or.inr ⟨adds_refl _, ?_⟩
    intro fine
    cases fine
  | ok path =>
    have added := update_adds scheme (path.len + 1) (asReference t.rootRef) path value t
    cases ran : update scheme (path.len + 1) (asReference t.rootRef) path value t with
    | mk result t' =>
      rw [ran] at added
      cases result with
      | error e =>
        have same : after = (.error e, t') := by
          simp only [after, MerkleTrees.insert, parsed, bind_run, lift_run, reads_run, ran]
        rw [same]
        refine Or.inr ⟨added, ?_⟩
        intro fine
        cases fine
      | ok r =>
        refine Or.inl ⟨t'.disk, r, added, ?_⟩
        simp only [after, MerkleTrees.insert, parsed, write, bind_run, lift_run, reads_run, ran,
          modify_run]

/- What a trie with the effects of some inserts is. -/

def Kept (codec : Codec scheme limits) (run : List (Entry scheme limits secure))
    (t : MerklePatriciaTrie) : Prop :=
  if run = [] then t = openTrie t.disk ∧ (t.disk.rootFile = none ∨ t.disk.rootFile = some [])
  else Represents codec (trieOf (pathEntries run)) t

theorem kept_some {run : List (Entry scheme limits secure)} {t : MerklePatriciaTrie}
    (kept : Kept codec run t) (some : run ≠ []) :
    Represents codec (trieOf (pathEntries run)) t := by
  rwa [Kept, if_neg some] at kept

theorem kept_none {run : List (Entry scheme limits secure)} {t : MerklePatriciaTrie}
    (kept : Kept codec run t) (none : run = []) :
    t = openTrie t.disk ∧ (t.disk.rootFile = .none ∨ t.disk.rootFile = some []) := by
  rwa [Kept, if_pos none] at kept

theorem kept_insert {run : List (Entry scheme limits secure)} {t : MerklePatriciaTrie}
    (kept : Kept codec run t) (e : Entry scheme limits secure)
    (good : Good limits (MerkleTrees.insert scheme secure e.key e.value t).2) :
    (MerkleTrees.insert scheme secure e.key e.value t).1 = .ok () ∧
      Kept codec (run ++ [e]) (MerkleTrees.insert scheme secure e.key e.value t).2 := by
  have goal (shown : Ensures (Good limits) (MerkleTrees.insert scheme false
      (pathKey scheme secure e.key) e.value) t fun _ t' => Represents codec (CompactTrie.insert
        (trieOf (pathEntries run)) (nibbles (pathKey scheme secure e.key)) e.value) t') :
      (MerkleTrees.insert scheme secure e.key e.value t).1 = .ok () ∧
        Kept codec (run ++ [e]) (MerkleTrees.insert scheme secure e.key e.value t).2 := by
    obtain ⟨_, fine, held⟩ := shown good
    refine ⟨fine, ?_⟩
    rw [Kept, if_neg (by simp), pathEntries, List.map_append, List.map_singleton, trieOf_append]
    exact held
  by_cases none : run = []
  · obtain ⟨whole, file⟩ := kept_none kept none
    have root : t.rootRef = t.disk.rootFile := congrArg MerklePatriciaTrie.rootRef whole
    refine goal (insert_rooted ?_ ?_ ?_ e.ok)
    · rw [none]
      exact ⟨trivial, trivial⟩
    · rw [none]
      exact .empty
    · rw [root, none]
      rcases file with file | file
      · exact Or.inl file
      · exact Or.inr ⟨rfl, file⟩
  · have shown := kept_some kept none
    exact goal (insert_rooted shown.valid shown.written (Or.inl shown.rootRef) e.ok)

/-- More nodes on disk are nothing to the next process. -/
theorem kept_reopen {run : List (Entry scheme limits secure)} {t : MerklePatriciaTrie}
    (kept : Kept codec run t) {d : Disk} (nodes : Adds t.disk d) : Kept codec run (openTrie d) := by
  have file := adds_rootFile nodes
  by_cases none : run = []
  · have held := (kept_none kept none).2
    rw [← file] at held
    rw [Kept, if_pos none]
    exact ⟨rfl, held⟩
  · have shown := kept_some kept none
    have root := file.trans shown.rootFile
    rw [Kept, if_neg none]
    exact ⟨shown.valid, written_later (adds_db nodes) shown.written, root, root, root⟩

theorem kept_truncated {run : List (Entry scheme limits secure)} {t : MerklePatriciaTrie}
    (kept : Kept codec run t) (truncated : Truncated t.disk) : run = [] := by
  by_contra some
  have shown := kept_some kept some
  have occupied := kept_occupied some
  have file := shown.rootFile
  rw [rootOf_occupied codec occupied, truncated_file truncated, Option.some.injEq] at file
  have whole := refOf_length codec occupied
  simp [← file] at whole

theorem kept_keeps (codec : Codec scheme limits) (secure : Bool) :
    Keeps (trieKeeper codec secure) (fun d => Admissible limits d.db) (Kept codec) where
  earlier _ _ grown good := admissible_earlier grown good
  empty := by
    rw [Kept, if_pos rfl]
    exact ⟨rfl, Or.inl rfl⟩
  writes := by
    intro run t e kept _
    rcases @insert_writes scheme secure e.key e.value t with written | ⟨added, raised⟩
    · exact Or.inl written
    · exact Or.inr ⟨added, fun good => raised (kept_insert kept e good).1⟩
  insert := by
    intro run t e kept good
    exact (kept_insert kept e good).2
  reopen := by
    rintro run t _ d kept nodes _ rfl
    exact kept_reopen kept nodes
  emptied := by
    rintro d _ file rfl
    rw [Kept, if_pos rfl]
    exact ⟨rfl, Or.inr file⟩
  truncated := by
    intro run t kept truncated
    exact kept_truncated kept truncated

/- What such a trie answers. -/

theorem kept_get {run : List (Entry scheme limits secure)} {t : MerklePatriciaTrie}
    (kept : Kept codec run t) (good : Good limits t) {key v : Bytes}
    (last : lastKept run key = some v) : MerkleTrees.get scheme secure t key = .ok (.bytes v) := by
  have some : run ≠ [] := by
    rintro rfl
    cases last
  rw [get_pathKey]
  exact get_lookup (kept_some kept some) good ((kept_lookup run key).trans last)

/-- Keys of one length never stray into the nodes of each other. -/
theorem level_ends {t : NibbleTrie} (valid : Canonical t) {k : List Nat}
    (level : ∀ k', keysOf t k' → k'.length = k.length) (absent : lookup t k = none) :
    ¬ Ends t k := by
  have stop (a : List Nat) (key : keysOf t (k ++ a)) : a = [] := by
    have size := level _ key
    rw [List.length_append] at size
    exact List.eq_nil_of_length_eq_zero (by omega)
  rw [ends_iff valid]
  rintro (here | ⟨a, b, left, right, apart⟩ | ⟨⟨a, key, _⟩, _⟩)
  · exact here absent
  · rw [stop a left, stop b right] at apart
    exact apart rfl
  · have none := stop a key
    rw [none, List.append_nil] at key
    exact key absent

/-- While the file of the root is empty every key is missing. -/
theorem blank_get {t : MerklePatriciaTrie} (root : t.rootRef = some [])
    (digests : ∀ p ∈ t.disk.db.puts, p.1.length = 32) (key : Bytes) :
    ∃ message, MerkleTrees.get scheme secure t key = .error (.keyError message) := by
  obtain ⟨path, parsed, _, _⟩ := ofBytes_hex (pathKey scheme secure key) 0
  have parsed' : keyPath scheme secure key = .ok path := parsed
  have gone : t.disk.db.get [] = none := by
    cases found : t.disk.db.get [] with
    | none => rfl
    | some e => exact absurd (digests _ (get_member found)) (by simp)
  refine ⟨"Node not found: " ++ hex [], ?_⟩
  simp only [MerkleTrees.get, root, parsed', getFrom, getNode, gone, bind, Except.bind]

theorem kept_absent {run : List (Entry scheme limits secure)} {t : MerklePatriciaTrie}
    (kept : Kept codec run t) (good : Good limits t)
    (digests : ∀ p ∈ t.disk.db.puts, p.1.length = 32) {key : Bytes}
    (level : ∀ e ∈ run, (pathKey scheme secure e.key).length = (pathKey scheme secure key).length)
    (absent : lastKept run key = none) :
    ∃ message, MerkleTrees.get scheme secure t key = .error (.keyError message) := by
  by_cases none : run = []
  · obtain ⟨whole, file⟩ := kept_none kept none
    have root : t.rootRef = t.disk.rootFile := congrArg MerklePatriciaTrie.rootRef whole
    rcases file with file | file
    · exact ⟨"Empty trie", by simp only [MerkleTrees.get, root, file]⟩
    · exact blank_get (root.trans file) digests key
  · have shown := kept_some kept none
    rw [get_pathKey, get_raises_iff shown good]
    refine level_ends shown.valid.canonical ?_ ((kept_lookup run key).trans absent)
    intro k' key'
    obtain ⟨v, found⟩ := Option.ne_none_iff_exists'.mp key'
    obtain ⟨e, member, rfl⟩ := kept_member found
    rw [nibbles_length, nibbles_length, level e member]

/-- The trie as it was, opened at its root on a disk that has its nodes. -/
theorem kept_restores {run : List (Entry scheme limits secure)} {t : MerklePatriciaTrie}
    (kept : Kept codec run t) (some : run ≠ []) {d : Disk} (grown : t.disk.db.Extends d.db) :
    ∃ r, t.rootRef = .some r ∧ Kept codec run (openTrie (d.apply (.writeRoot r))) := by
  have shown := kept_some kept some
  have root := rootOf_occupied codec (kept_occupied some)
  refine ⟨_, shown.rootRef.trans root, ?_⟩
  rw [Kept, if_neg some]
  exact ⟨shown.valid, written_later grown shown.written, root.symm, root.symm, root.symm⟩

theorem kept_same {run run' : List (Entry scheme limits secure)}
    (same : ∀ key, lastKept run key = lastKept run' key) (k : List Nat) :
    lookup (trieOf (pathEntries run)) k = lookup (trieOf (pathEntries run')) k := by
  have one {left right : List (Entry scheme limits secure)}
      (equal : ∀ key, lastKept left key = lastKept right key) {v : Bytes}
      (found : lookup (trieOf (pathEntries left)) k = some v) :
      lookup (trieOf (pathEntries right)) k = some v := by
    obtain ⟨e, _, rfl⟩ := kept_member found
    rw [kept_lookup] at found ⊢
    rw [← equal, found]
  apply Option.ext
  intro v
  exact ⟨one same, one fun key => (same key).symm⟩

theorem lastKept_none {run : List (Entry scheme limits secure)} :
    (∀ key, lastKept run key = none) ↔ run = [] := by
  constructor
  · intro absent
    by_contra some
    have last := absent (run.getLast some).key
    rw [lastKept, Option.map_eq_none_iff, List.find?_eq_none] at last
    exact last _ (List.mem_reverse.mpr (List.getLast_mem some)) (beq_self_eq_true _)
  · rintro rfl key
    rfl

/- Tries in keccak mode. -/
section Keccak
variable (keccak : Keccak) {secure : Bool}
  {s : List (Entry (keccakScheme keccak.hash) keccakLimits secure) × MerklePatriciaTrie}

theorem session_addressed (session : Session (trieKeeper (keccakCodec keccak) secure) s) :
    ∀ p ∈ s.2.disk.db.puts, p.1 = keccak.hash p.2 := by
  induction session with
  | refl => simp [trieKeeper, emptyTrie, openTrie, Disk.db]
  | tail _ step ih =>
    cases step with
    | insert run t e =>
      exact (insert_grows (keccakCodec keccak) secure e.key e.value t).addressed ih
    | reopen run opened =>
      cases opened
      exact ih
    | @stop run t u e d stops opened =>
      cases opened
      have grown := (insert_grows (keccakCodec keccak) secure e.key e.value t).addressed ih
      intro p member
      exact grown p ((suffix_db stops.2).subset member)

theorem session_good (session : Session (trieKeeper (keccakCodec keccak) secure) s)
    (distinct : Separates keccak.hash (storedEncodings s.2)) : Good keccakLimits s.2 := by
  have addressed := session_addressed keccak session
  refine ⟨consistent_of_digest keccak.hash addressed distinct, fun p member => ?_⟩
  rw [addressed p member]
  exact keccak.size p.2

theorem session_kept (session : Session (trieKeeper (keccakCodec keccak) secure) s)
    (distinct : Separates keccak.hash (storedEncodings s.2)) :
    Kept (keccakCodec keccak) s.1 s.2 :=
  keeps_session (kept_keeps (keccakCodec keccak) secure) session
    (session_good keccak session distinct)

/-- Whatever the order of inserts, restarts and stops, every key reads as its last insert
    that was not lost, and one without it is missing among keys of its length. -/
theorem trie_sessions_keep (session : Session (trieKeeper (keccakCodec keccak) secure) s)
    (distinct : Separates keccak.hash (storedEncodings s.2)) (key : Bytes) :
    (∀ v, lastKept s.1 key = some v →
      MerkleTrees.get (keccakScheme keccak.hash) secure s.2 key = .ok (.bytes v)) ∧
    ((∀ e ∈ s.1, (pathKey (keccakScheme keccak.hash) secure e.key).length =
        (pathKey (keccakScheme keccak.hash) secure key).length) → lastKept s.1 key = none →
      ∃ message, MerkleTrees.get (keccakScheme keccak.hash) secure s.2 key =
        .error (.keyError message)) := by
  have kept := session_kept keccak session distinct
  have good := session_good keccak session distinct
  exact ⟨fun v => kept_get kept good, kept_absent kept good good.references⟩

/-- Sessions that end in the same map have the same root and the same proofs. -/
theorem trie_sessions_agree
    {u : List (Entry (keccakScheme keccak.hash) keccakLimits secure) × MerklePatriciaTrie}
    (session : Session (trieKeeper (keccakCodec keccak) secure) s)
    (session' : Session (trieKeeper (keccakCodec keccak) secure) u)
    (distinct : Separates keccak.hash (storedEncodings s.2))
    (distinct' : Separates keccak.hash (storedEncodings u.2))
    (same : ∀ key, lastKept s.1 key = lastKept u.1 key) :
    rootHash (keccakScheme keccak.hash) s.2 = rootHash (keccakScheme keccak.hash) u.2 ∧
      ∀ key v, lastKept s.1 key = some v →
        getProofTree (keccakScheme keccak.hash) secure s.2 key =
          getProofTree (keccakScheme keccak.hash) secure u.2 key := by
  have kept := session_kept keccak session distinct
  have kept' := session_kept keccak session' distinct'
  by_cases none : s.1 = []
  · have none' : u.1 = [] := by
      rw [← lastKept_none] at none ⊢
      intro key
      rw [← same, none]
    refine ⟨?_, fun key v last => ?_⟩
    · obtain ⟨whole, file⟩ := kept_none kept none
      obtain ⟨whole', file'⟩ := kept_none kept' none'
      rw [whole, whole']
      rcases file with file | file <;> rcases file' with file' | file' <;>
        simp only [rootHash, openTrie, file, file']
    · rw [none] at last
      cases last
  · have none' : u.1 ≠ [] := by
      intro empty
      refine none (lastKept_none.mp fun key => ?_)
      rw [same, empty]
      rfl
    have shown := kept_some kept none
    have shown' := kept_some kept' none'
    have equal := canonical_unique _ _ shown.valid.canonical shown'.valid.canonical (kept_same same)
    refine ⟨?_, fun key v last => ?_⟩
    · rw [rootHash_occupied shown (kept_occupied none), rootHash_occupied shown' (kept_occupied none'),
        equal]
    · have found := (kept_lookup s.1 key).trans last
      have found' := (kept_lookup u.1 key).trans ((same key).symm.trans last)
      rw [getProofTree_pathKey s.2, getProofTree_pathKey u.2,
        getProofTree_forms (session_good keccak session distinct) shown found,
        getProofTree_forms (session_good keccak session' distinct') shown' found', equal]

/-- For a whole key the root is the digest of the first node. -/
theorem accepted_digest {proofNodes : List Bytes} {key value r : Bytes} (size : 32 ≤ key.length)
    (accepted : verifySingleProof keccak.hash proofNodes key value (some r) = .ok true) :
    ∃ first rest path, proofNodes = first :: rest ∧
      intoReferenceFromEncoded keccak.hash first = r ∧ r.length = 32 ∧
      path.remaining = nibbles key ∧ walkProof keccak.hash value (first :: rest) path = .ok true := by
  obtain ⟨path, parsed, _, digits⟩ := ofBytes_hex key 0
  rw [List.drop_zero] at digits
  have wholeKey : path.len = 2 * key.length := by
    rw [← NibblePath.remaining_length, digits, nibbles_length]
  cases proofNodes with
  | nil => simp [verifySingleProof] at accepted
  | cons first rest =>
    simp only [verifySingleProof, parsed, bind, Except.bind] at accepted
    split at accepted
    · simp [printHex, asReference] at accepted
    · rename_i agrees
      have long : ¬ first.length < 32 := by
        intro short
        have room := walk_short keccak.size short accepted
        omega
      have hashed : intoReferenceFromEncoded keccak.hash first = keccak.hash first :=
        if_pos (by omega)
      have link : intoReferenceFromEncoded keccak.hash first = r := by
        by_contra differ
        exact agrees ⟨by rw [hashed]; exact keccak.size _, by simpa using differ⟩
      exact ⟨first, rest, path, rfl, link, by rw [← link, hashed]; exact keccak.size _, digits,
        accepted⟩

/-- An accepted proof names what the trie of the root holds. -/
theorem accepted_stored {T : NibbleTrie} {t : MerklePatriciaTrie} (good : Good keccakLimits t)
    (shown : Represents (keccakCodec keccak) T t) (occupied : T ≠ .empty) {proofNodes : List Bytes}
    (distinct : Separates keccak.hash (storedEncodings t ++ proofNodes)) {key value : Bytes}
    (level : ∀ k, keysOf T k → k.length = 2 * key.length) (size : 32 ≤ key.length)
    (accepted : verifySingleProof keccak.hash proofNodes key value
      (some (refOf (keccakCodec keccak) T)) = .ok true) :
    lookup T (nibbles key) = some value := by
  obtain ⟨first, rest, path, rfl, link, _, digits, walked⟩ := accepted_digest keccak size accepted
  rw [linked_stored shown.written occupied distinct link] at walked
  rw [← digits]
  refine walk_stored good shown.valid shown.written occupied
    (separates_subset (later_nodes _ _ _) distinct) (fun k v answer => ?_) walked
  rw [level k (by simp [keysOf, answer]), ← NibblePath.remaining_length, digits, nibbles_length]

/-- A client that knows no more than a root of the trie accepts, from whoever sends it
    proof nodes, only the value that the key had under that root. -/
theorem client_safe (session : Session (trieKeeper (keccakCodec keccak) secure) s) {r : Bytes}
    (root : s.2.rootRef = some r) {proofNodes : List Bytes}
    (distinct : Separates keccak.hash (storedEncodings s.2 ++ proofNodes)) {key value : Bytes}
    (size : 32 ≤ (pathKey (keccakScheme keccak.hash) secure key).length)
    (level : ∀ e ∈ s.1, (pathKey (keccakScheme keccak.hash) secure e.key).length =
      (pathKey (keccakScheme keccak.hash) secure key).length)
    (accepted : verifySingleProof keccak.hash proofNodes
      (pathKey (keccakScheme keccak.hash) secure key) value (some r) = .ok true) :
    lastKept s.1 key = some value := by
  have stored := separates_subset (List.subset_append_left _ _) distinct
  have kept := session_kept keccak session stored
  have some : s.1 ≠ [] := by
    intro none
    obtain ⟨whole, file⟩ := kept_none kept none
    have same : s.2.rootRef = s.2.disk.rootFile := congrArg MerklePatriciaTrie.rootRef whole
    rw [same] at root
    obtain ⟨_, _, _, _, _, whole', _⟩ := accepted_digest keccak size accepted
    rcases file with file | file <;> rw [file] at root <;> cases root
    cases whole'
  have shown := kept_some kept some
  have occupied := kept_occupied some
  have named := root.symm.trans (shown.rootRef.trans (rootOf_occupied _ occupied))
  rw [Option.some.injEq] at named
  rw [named] at accepted
  rw [← kept_lookup]
  refine accepted_stored keccak (session_good keccak session stored) shown occupied distinct ?_ size
    accepted
  intro k there
  obtain ⟨v, found⟩ := Option.ne_none_iff_exists'.mp there
  obtain ⟨e, member, rfl⟩ := kept_member found
  rw [nibbles_length, level e member]

/-- Such a client can be served forever: after any further inserts, restarts and stops the
    disk still yields an accepted proof of everything that was under the root. -/
theorem client_served {u : List (Entry (keccakScheme keccak.hash) keccakLimits secure) ×
      MerklePatriciaTrie}
    (session : Session (trieKeeper (keccakCodec keccak) secure) s) (occupied : s.1 ≠ [])
    (later : Later (trieKeeper (keccakCodec keccak) secure) s u)
    (distinct : Separates keccak.hash (storedEncodings u.2)) :
    ∃ r, s.2.rootRef = some r ∧ ∀ key v, lastKept s.1 key = some v →
      MerkleTrees.get (keccakScheme keccak.hash) secure
          (openTrie (u.2.disk.apply (.writeRoot r))) key = .ok (.bytes v) ∧
        ∃ nodes, getProofTree (keccakScheme keccak.hash) secure
            (openTrie (u.2.disk.apply (.writeRoot r))) key = .ok nodes ∧
          verifySingleProof keccak.hash nodes (pathKey (keccakScheme keccak.hash) secure key) v
            (some r) = .ok true := by
  have good := session_good keccak (session.trans later) distinct
  have grown := later_grows later
  have stored : Separates keccak.hash (storedEncodings s.2) :=
    separates_subset (List.map_subset _ grown.subset) distinct
  have kept := session_kept keccak session stored
  obtain ⟨r, root, kept'⟩ := kept_restores kept occupied grown
  have shown := kept_some kept' occupied
  have named : some r = some (refOf (keccakCodec keccak) (trieOf (pathEntries s.1))) :=
    (rfl : some r = (openTrie (u.2.disk.apply (.writeRoot r))).rootRef).trans
      (shown.rootRef.trans (rootOf_occupied _ (kept_occupied occupied)))
  have good' : Good keccakLimits (openTrie (u.2.disk.apply (.writeRoot r))) := good
  refine ⟨r, root, fun key v last => ⟨kept_get kept' good' last, ?_⟩⟩
  obtain ⟨nodes, made, accepted⟩ := proof_of_key good' shown ((kept_lookup s.1 key).trans last)
  rw [← named] at accepted
  exact ⟨nodes, made, accepted⟩

end Keccak

/- Two keys, and a stop during the second insert before the file of the root is
   touched. -/
section Sample

abbrev SampleEntry := Entry (keccakScheme spreadKeccak.hash) keccakLimits false

abbrev sampleKeeper : Keeper MerklePatriciaTrie SampleEntry :=
  trieKeeper (keccakCodec spreadKeccak) false

def firstEntry : SampleEntry :=
  ⟨sampleBytes 107, sampleBytes 97, by unfold EntryOk keccakLimits; decide⟩

def secondEntry : SampleEntry :=
  ⟨sampleBytes 108, sampleBytes 98, by unfold EntryOk keccakLimits; decide⟩

@[irreducible] def firstTrie : MerklePatriciaTrie := sampleKeeper.insert firstEntry emptyTrie

@[irreducible] def secondTrie : MerklePatriciaTrie := sampleKeeper.insert secondEntry firstTrie

@[irreducible] def haltedDisk : Disk := ⟨secondTrie.disk.effects.drop 2⟩

theorem haltedDisk_facts :
    StopsAt (sampleKeeper.disk firstTrie) (sampleKeeper.disk secondTrie) haltedDisk ∧
    keptRun [firstEntry] secondEntry (sampleKeeper.disk secondTrie) haltedDisk = [firstEntry] ∧
    Separates spreadKeccak.hash (storedEncodings secondTrie) := by
  have facts : StopsAt (sampleKeeper.disk firstTrie) (sampleKeeper.disk secondTrie) haltedDisk ∧
      (¬ Truncated haltedDisk ∧ haltedDisk ≠ sampleKeeper.disk secondTrie) ∧
      Separates spreadKeccak.hash (storedEncodings secondTrie) := by
    unfold StopsAt
    decide +kernel
  refine ⟨facts.1, ?_, facts.2.2⟩
  rw [keptRun, if_neg facts.2.1.1, if_neg facts.2.1.2]

theorem firstTrie_session : Session sampleKeeper ([firstEntry], firstTrie) := by
  unfold firstTrie
  exact Relation.ReflTransGen.single (.insert [] emptyTrie firstEntry)

theorem secondTrie_step : Later sampleKeeper ([firstEntry], firstTrie)
    ([firstEntry, secondEntry], secondTrie) := by
  unfold secondTrie
  exact Relation.ReflTransGen.single (.insert [firstEntry] firstTrie secondEntry)

theorem halted_session : Session sampleKeeper ([firstEntry], openTrie haltedDisk) ∧
    Separates spreadKeccak.hash (storedEncodings (openTrie haltedDisk)) := by
  obtain ⟨stops, kept, distinct⟩ := haltedDisk_facts
  have part := separates_subset (List.map_subset _ (suffix_db stops.2).subset) distinct
  have inserted : sampleKeeper.insert secondEntry firstTrie = secondTrie := by
    unfold secondTrie
    rfl
  rw [← inserted] at stops kept
  have step := @Step.stop _ _ sampleKeeper [firstEntry] _ _ secondEntry _ stops rfl
  rw [kept] at step
  exact ⟨firstTrie_session.tail step, part⟩

theorem firstEntry_last : lastKept [firstEntry] (sampleBytes 107) = some (sampleBytes 97) ∧
    lastKept [firstEntry] (sampleBytes 108) = none := by
  decide

theorem trie_sessions_keep_sample :
    MerkleTrees.get (keccakScheme spreadKeccak.hash) false (openTrie haltedDisk)
      (sampleBytes 107) = .ok (.bytes (sampleBytes 97)) ∧
    ∃ message, MerkleTrees.get (keccakScheme spreadKeccak.hash) false (openTrie haltedDisk)
      (sampleBytes 108) = .error (.keyError message) := by
  obtain ⟨session, distinct⟩ := halted_session
  have present := trie_sessions_keep spreadKeccak session distinct (sampleBytes 107)
  have absent := trie_sessions_keep spreadKeccak session distinct (sampleBytes 108)
  exact ⟨present.1 _ firstEntry_last.1, absent.2 (by decide) firstEntry_last.2⟩

theorem trie_sessions_agree_sample :
    rootHash (keccakScheme spreadKeccak.hash) (openTrie haltedDisk) =
      rootHash (keccakScheme spreadKeccak.hash) firstTrie := by
  obtain ⟨session, distinct⟩ := halted_session
  have distinct' : Separates spreadKeccak.hash (storedEncodings firstTrie) := by decide +kernel
  exact (trie_sessions_agree spreadKeccak session firstTrie_session distinct distinct' fun _ => rfl).1

theorem client_served_sample : ∃ r nodes, firstTrie.rootRef = some r ∧
    getProofTree (keccakScheme spreadKeccak.hash) false
      (openTrie (secondTrie.disk.apply (.writeRoot r))) (sampleBytes 107) = .ok nodes := by
  obtain ⟨r, root, served⟩ := client_served spreadKeccak firstTrie_session (List.cons_ne_nil _ _)
    secondTrie_step haltedDisk_facts.2.2
  obtain ⟨_, nodes, made, _⟩ := served _ _ firstEntry_last.1
  exact ⟨r, nodes, root, made⟩

def secondProof : List Bytes :=
  ((getProofTree (keccakScheme spreadKeccak.hash) false secondTrie (sampleBytes 107)).toOption).getD []

def secondRoot : Bytes := secondTrie.rootRef.getD []

theorem secondProof_facts :
    secondProof.length = 3 ∧ secondTrie.rootRef = some secondRoot ∧
    Separates spreadKeccak.hash (storedEncodings secondTrie ++ secondProof) ∧
    verifySingleProof spreadKeccak.hash secondProof (sampleBytes 107) (sampleBytes 97)
      (some secondRoot) = .ok true := by
  unfold secondProof secondRoot secondTrie firstTrie
  decide +kernel

theorem client_safe_sample :
    lastKept [firstEntry, secondEntry] (sampleBytes 107) = some (sampleBytes 97) := by
  obtain ⟨_, root, distinct, accepted⟩ := secondProof_facts
  exact client_safe spreadKeccak (firstTrie_session.trans secondTrie_step) root distinct (by decide)
    (by decide) accepted

end Sample

end MerkleSessions
