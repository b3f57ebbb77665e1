import StatelessEthereum.MerkleVerifier
import StatelessEthereum.MerkleCollect

/- The proofs that the prover makes and what the verifier says of them. Both
   walk the abstract trie, so every proof for an inserted key is accepted; the
   trie before its first insert is the one case where prover and tree disagree
   on the root. -/
namespace MerkleCompleteness
open PythonError BigEndian NibblePaths MerkleNodes MerkleForms StateEffect PutLog DiskLog CompactTrie
open MerkleTrees hiding insert get
open MerkleStorage MerkleRefinement MerkleRuns MerkleCollect MerkleVerifiers

section Walks
variable {keccak : Keccak} {db : Store Bytes Bytes}

theorem reference_trie (good : Admissible keccakLimits db) {t : NibbleTrie}
    (valid : Valid keccakLimits t) (stored : Written (keccakCodec keccak) db t)
    (occupied : t ≠ .empty) :
    intoReferenceFromEncoded keccak.hash (nodeItem (formOf (keccakCodec keccak) t)).encode =
      refOf (keccakCodec keccak) t := by
  have long := nodeItem_long (storable_formOf valid occupied
    fun _ child held => written_refOk good (written_child stored child) held)
  rw [intoReferenceFromEncoded, if_pos long, refOf_occupied occupied]
  rfl

/-- A collected proof starts with the encoding of its trie and is accepted. -/
structure Proves (keccak : Keccak) (t : NibbleTrie) (path : NibblePath) (v : Bytes)
    (nodes : List Bytes) : Prop where
  first : nodes.head? = some (nodeItem (formOf (keccakCodec keccak) t)).encode
  accepted : walkProof keccak.hash v nodes path = .ok true

theorem proves_linked (good : Admissible keccakLimits db) {t : NibbleTrie}
    (valid : Valid keccakLimits t) (stored : Written (keccakCodec keccak) db t)
    (occupied : t ≠ .empty) {path : NibblePath} {v : Bytes} {nodes : List Bytes}
    (proves : Proves keccak t path v nodes) :
    linked keccak.hash (.bytes (refOf (keccakCodec keccak) t)) nodes = true := by
  have first := proves.first
  cases nodes with
  | nil => simp at first
  | cons encoded rest =>
    simp only [List.head?_cons, Option.some.injEq] at first
    rw [first, linked, reference_trie good valid stored occupied, PyObj.isBytes, beq_self_eq_true]

theorem formsAlong_proves (good : Admissible keccakLimits db) {t : NibbleTrie}
    (valid : Valid keccakLimits t) (stored : Written (keccakCodec keccak) db t)
    (path : NibblePath) {v : Bytes} (found : lookup t path.remaining = some v) :
    Proves keccak t path v
      ((formsAlong (keccakCodec keccak) t path.remaining).map (keccakCodec keccak).layout) := by
  induction t generalizing path with
  | empty => simp [lookup] at found
  | leaf p w =>
    obtain ⟨node, loaded, shows⟩ := decode_trie good valid stored (by simp)
    cases node <;> simp only [formOf, Shows] at shows
    rename_i nodePath data
    obtain ⟨width, rfl, rfl⟩ := shows
    simp only [lookup, Option.ite_none_right_eq_some, Option.some.injEq] at found
    obtain ⟨same, rfl⟩ := found
    have equal := (NibblePath.eq_iff nodePath path).mpr same
    simp only [keccakScheme_decode, formOf] at loaded
    refine ⟨rfl, ?_⟩
    simp [formsAlong, walkProof, loaded, equal, PyObj.isBytes]
  | ext p t ih =>
    obtain ⟨node, loaded, shows⟩ := decode_trie good valid stored (by simp)
    cases node <;> simp only [formOf, Shows] at shows
    rename_i nodePath nextRef
    obtain ⟨width, rfl, rfl⟩ := shows
    simp only [lookup, Option.ite_none_right_eq_some] at found
    obtain ⟨covered, found⟩ := found
    have starts := (NibblePath.startsWith_iff path nodePath).mpr covered
    have below := valid_child valid .ext
    have storedBelow := written_child stored .ext
    have proves := ih below storedBelow (path.consume nodePath.len) (by simpa using found)
    have link := proves_linked good below storedBelow (below_ext valid) proves
    have accepted := proves.accepted
    rw [NibblePath.remaining_consume, ← NibblePath.remaining_length] at link accepted
    simp only [keccakScheme_decode, formOf] at loaded
    refine ⟨rfl, ?_⟩
    simp only [formsAlong, List.map_cons, walkProof, loaded, starts, link, Bool.not_true,
      Bool.false_eq_true, ↓reduceIte]
    rw [NibblePath.remaining_length] at accepted ⊢
    exact accepted
  | branch cs w ih =>
    obtain ⟨node, loaded, shows⟩ := decode_trie good valid stored (by simp)
    cases node <;> simp only [formOf, Shows] at shows
    rename_i branches data
    obtain ⟨rfl, rfl⟩ := shows_branch_inv shows
    simp only [keccakScheme_decode] at loaded
    cases shape : path.remaining with
    | nil =>
      rw [shape] at found
      simp only [lookup] at found
      subst found
      have none : path.len = 0 := (NibblePath.len_eq_zero_iff path).mpr shape
      refine ⟨rfl, ?_⟩
      simp only [formsAlong, List.map_cons, walkProof, loaded, none, ↓reduceIte, Option.getD_some,
        PyObj.isBytes, beq_self_eq_true]
    | cons i rest =>
      obtain ⟨size, digit, tail⟩ := path_cons shape
      rw [shape] at found
      simp only [lookup] at found
      have held := lookup_occupied found
      have inside := slot_inside valid held
      have below := valid_child valid (.slot i)
      have storedBelow := written_child stored (.slot i)
      have proves := ih i below storedBelow (path.consume 1) (by rw [tail]; exact found)
      have link := proves_linked good below storedBelow held proves
      have accepted := proves.accepted
      rw [tail] at link accepted
      have more : path.len ≠ 0 := by omega
      have whole := refOf_length (keccakCodec keccak) held
      refine ⟨rfl, ?_⟩
      simp only [formsAlong, List.map_cons, walkProof, loaded, more, digit, entry_slotsOf inside,
        PyObj.len, whole, link, accepted, bind, Except.bind, Bool.not_true, Bool.false_eq_true,
        ↓reduceIte, OfNat.ofNat_ne_zero]

end Walks

/- Whole proofs. -/
section Proofs
variable {keccak : Keccak} {t : NibbleTrie} {s : MerklePatriciaTrie}

theorem proof_of_key (good : Good keccakLimits s) (shown : Represents (keccakCodec keccak) t s)
    {key v : Bytes} (found : lookup t (nibbles key) = some v) :
    ∃ nodes, getProofTree (keccakScheme keccak.hash) false s key = .ok nodes ∧
      verifySingleProof keccak.hash nodes key v (some (refOf (keccakCodec keccak) t)) =
        .ok true := by
  obtain ⟨path, parsed, _, digits⟩ := keyPath_plain (keccakScheme keccak.hash) key
  have occupied := lookup_occupied found
  have root := shown.rootRef.trans (rootOf_occupied _ occupied)
  have proves := formsAlong_proves good shown.valid shown.written path
    (by rw [digits]; exact found)
  rw [digits] at proves
  refine ⟨_, getProofTree_forms good shown found, ?_⟩
  · have first := proves.first
    generalize (formsAlong (keccakCodec keccak) t (nibbles key)).map _ = nodes at proves first ⊢
    cases nodes with
    | nil => simp at first
    | cons encoded rest =>
      simp only [List.head?_cons, Option.some.injEq] at first
      have computed := reference_trie good shown.valid shown.written occupied
      rw [← first] at computed
      have parsedKey : NibblePaths.ofBytes key 0 16 = .ok path := parsed
      simp only [verifySingleProof, parsedKey, computed, proves.accepted, bind, Except.bind, ne_eq,
        not_true_eq_false, and_false, ↓reduceIte]

/-- The batch loop accepts proofs that are accepted one by one. -/
theorem verifyEach_all {root : Option Bytes} (entries : List (List Bytes × Bytes × Bytes))
    (each : ∀ e ∈ entries, verifySingleProof keccak.hash e.1 e.2.1 e.2.2 root = .ok true) :
    verifyEach keccak.hash root entries = .ok true := by
  induction entries with
  | nil => rfl
  | cons e entries ih =>
    have here := each e (by simp)
    have rest := ih fun x member => each x (by simp [member])
    simp only [verifyEach, here, rest, bind, Except.bind, ↓reduceIte]

theorem generateProof_all (good : Good keccakLimits s)
    (shown : Represents (keccakCodec keccak) t s) (claims : List (Bytes × Bytes))
    (current : ∀ c ∈ claims, lookup t (nibbles c.1) = some c.2) :
    ∃ commitments, (claims.map Prod.fst).mapM (getProofTree (keccakScheme keccak.hash) false s) =
        .ok commitments ∧
      ∀ e ∈ commitments.zip ((claims.map Prod.fst).zip (claims.map Prod.snd)),
        verifySingleProof keccak.hash e.1 e.2.1 e.2.2 (some (refOf (keccakCodec keccak) t)) =
          .ok true := by
  induction claims with
  | nil => exact ⟨[], rfl, by simp⟩
  | cons c claims ih =>
    obtain ⟨nodes, made, accepted⟩ := proof_of_key good shown (current c (by simp))
    obtain ⟨commitments, rest, each⟩ := ih fun x member => current x (by simp [member])
    refine ⟨nodes :: commitments, ?_, ?_⟩
    · rw [List.map_cons, List.mapM_cons, made, rest]
      rfl
    · intro e member
      rcases List.mem_cons.mp member with rfl | older
      · exact accepted
      · exact each e older

end Proofs

/-- `verify_proof` on what `generate_proof` returns for the claimed pairs, with
    the tree's `root.value` as the root hash. -/
def proveAndVerify (keccak : Bytes → Bytes) (tree : MerklePatriciaTrie)
    (claims : List (Bytes × Bytes)) : Except PyError Bool := do
  let proof ← generateProof (keccakScheme keccak) false tree (claims.map Prod.fst)
  verifyProof keccak (claims.map Prod.snd) (claims.map Prod.fst) tree.rootValue proof

/-- Before the first insert the prover sends the hash of the empty trie, while
    `root.value` is `None`: the comparison fails and printing it raises. -/
theorem proveAndVerify_empty (keccak : Bytes → Bytes) :
    proveAndVerify keccak emptyTrie [] = .error .attributeError := rfl

theorem occupied_run {run : Run} (some : run ≠ []) : trieOf run.plain ≠ .empty := by
  obtain ⟨e, rest, rfl⟩ := List.exists_cons_of_ne_nil some
  obtain ⟨v, last⟩ := lastInserted_of_member (show e ∈ e :: rest by simp)
  exact lookup_occupied ((trieOf_lookup (e :: rest) e.1.bytes).trans last)

/-- The prover's proofs of inserted keys are accepted exactly from the first
    insert on. -/
theorem proofs_accepted_iff (keccak : Keccak) (run : Run)
    (long : ∀ e ∈ run, 32 ≤ e.2.bytes.length)
    (distinct : Separates keccak.hash
      (storedEncodings (insertRun (keccakScheme keccak.hash) run).2))
    (claims : List (Bytes × Bytes)) (current : ∀ c ∈ claims, lastInserted run c.1 = some c.2) :
    proveAndVerify keccak.hash (insertRun (keccakScheme keccak.hash) run).2 claims = .ok true ↔
      run ≠ [] := by
  constructor
  · rintro accepted rfl
    cases claims with
    | nil => simp [proveAndVerify_empty, insertRun, insertEach, Run.plain, forEach] at accepted
    | cons c claims =>
      have never := current c (by simp)
      simp [lastInserted] at never
  · intro some
    obtain ⟨_, shown⟩ := keccak_run keccak long distinct
    have occupied := occupied_run some
    have good := good_run keccak distinct
    obtain ⟨commitments, made, each⟩ := generateProof_all good shown claims fun c member =>
      (trieOf_lookup run c.1).trans (current c member)
    have root := shown.rootValue.trans (rootOf_occupied _ occupied)
    have verdict := verifyEach_all _ each
    simp only [proveAndVerify, generateProof, made, rootHash_occupied shown occupied, root,
      verifyProof, verdict, bind, Except.bind, ne_eq, not_true_eq_false, ↓reduceIte]

theorem proofs_accepted_sample :
    proveAndVerify sampleKeccak.hash (insertRun (keccakScheme sampleKeccak.hash) sampleRun).2
        [([0x12, 0x34], sampleBytes 98), ([0x12], sampleBytes 99),
          ([0x12, 0x34], sampleBytes 98)] = .ok true ↔ sampleRun ≠ [] :=
  proofs_accepted_iff sampleKeccak sampleRun (by decide) (by decide +kernel) _ (by decide)

/-- On the trie without inserts no key needs a proof, and still the check raises. -/
theorem proofs_not_always_accepted :
    ¬ ∀ (run : Run) (claims : List (Bytes × Bytes)), (∀ e ∈ run, 32 ≤ e.2.bytes.length) →
      Separates sampleKeccak.hash
        (storedEncodings (insertRun (keccakScheme sampleKeccak.hash) run).2) →
      (∀ c ∈ claims, lastInserted run c.1 = some c.2) →
      proveAndVerify sampleKeccak.hash (insertRun (keccakScheme sampleKeccak.hash) run).2 claims =
        .ok true := by
  intro always
  have accepted := always [] [] (by decide) (by decide) (by decide)
  simp [proveAndVerify_empty, insertRun, insertEach, Run.plain, forEach] at accepted

end MerkleCompleteness
