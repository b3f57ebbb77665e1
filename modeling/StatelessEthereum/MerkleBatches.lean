import StatelessEthereum.MerkleSessions
import StatelessEthereum.MerkleOptimized

/- What the two verifiers say of an honest batch: exactly whether the claimed values
   are the stored ones. Neither of them raises. -/
namespace MerkleBatches
open PythonError BigEndian NibblePaths MerkleNodes MerkleForms CompactTrie TrieWalk
open DiskSessions MerkleSessions Interning
open MerkleTrees hiding insert get
open MerkleStorage MerkleRefinement MerkleRuns MerkleCollect MerkleCompleteness

/- One proof. -/
section Walks
variable {hash : Bytes → Bytes} {v : Bytes}

theorem data_verdict {data : PyObj} (held : data.isBytes v = true) (w : Bytes) :
    data.isBytes w = (w == v) ∧ MerkleVerifiers.printHex data = .ok () := by
  cases data with
  | bytes b =>
    obtain rfl : b = v := beq_iff_eq.mp held
    refine ⟨?_, rfl⟩
    rw [PyObj.isBytes, Bool.eq_iff_iff, beq_iff_eq, beq_iff_eq, eq_comm]
  | _ => cases held

/-- A walk that ends at the value of its key tells every other value off. -/
theorem walk_verdict {nodes : List Bytes} {path : NibblePath}
    (accepted : MerkleVerifiers.walkProof hash v nodes path = .ok true) (w : Bytes) :
    MerkleVerifiers.walkProof hash w nodes path = .ok (w == v) ∧
      MerkleOptimized.walkProof hash w nodes path = .ok (w == v) := by
  induction nodes generalizing path with
  | nil => simp [MerkleVerifiers.walkProof] at accepted
  | cons e rest ih =>
    rw [MerkleVerifiers.walkProof] at accepted ⊢
    rw [MerkleOptimized.walkProof]
    cases decoded : Node.decode e with
    | error _ => simp [decoded] at accepted
    | ok node =>
      simp only [decoded] at accepted ⊢
      cases node with
      | leaf nodePath data =>
        simp only at accepted ⊢
        by_cases same : nodePath.eq path = true
        · by_cases held : data.isBytes v = true
          · obtain ⟨verdict, printed⟩ := data_verdict held w
            simp only [same, verdict, printed, Bool.not_true, Bool.false_eq_true, ↓reduceIte, bind,
              Except.bind]
            cases w == v <;> simp
          · simp only [same, held, Bool.not_true, Bool.not_false, Bool.false_eq_true, ↓reduceIte, bind,
              Except.bind] at accepted
            split at accepted <;> cases accepted
        · simp [same] at accepted
      | extension nodePath nextRef =>
        simp only at accepted ⊢
        by_cases starts : path.startsWith nodePath = true
        · by_cases link : MerkleVerifiers.linked hash nextRef rest = true
          · simp only [starts, link, Bool.not_true, Bool.false_eq_true, ↓reduceIte] at accepted ⊢
            exact ih accepted
          · simp [starts, link] at accepted
        · simp [starts] at accepted
      | branch branches data =>
        simp only at accepted ⊢
        by_cases none : path.len = 0
        · simp only [none, ↓reduceIte, Except.ok.injEq] at accepted ⊢
          have verdict := (data_verdict accepted w).1
          exact ⟨verdict, verdict⟩
        · simp only [none, ↓reduceIte] at accepted ⊢
          obtain ⟨idx, digit, accepted⟩ := ok_of_bind accepted
          obtain ⟨branchRef, slot, accepted⟩ := ok_of_bind accepted
          obtain ⟨length, size, accepted⟩ := ok_of_bind accepted
          simp only [digit, slot, size, bind, Except.bind]
          by_cases hollow : length = 0
          · simp [hollow] at accepted
          · by_cases link : MerkleVerifiers.linked hash branchRef rest = true
            · simp only [hollow, link, Bool.not_true, Bool.false_eq_true, ↓reduceIte] at accepted ⊢
              exact ih accepted
            · simp only [hollow, link, Bool.not_false, ↓reduceIte] at accepted
              obtain ⟨_, _, accepted⟩ := ok_of_bind accepted
              cases accepted

theorem single_verdict {nodes : List Bytes} {key : Bytes} {root : Option Bytes}
    (accepted : MerkleVerifiers.verifySingleProof hash nodes key v root = .ok true) (w : Bytes) :
    MerkleVerifiers.verifySingleProof hash nodes key w root = .ok (w == v) ∧
      MerkleOptimized.verifySingleProof hash nodes key w root = .ok (w == v) := by
  cases nodes with
  | nil => simp [MerkleVerifiers.verifySingleProof] at accepted
  | cons first rest =>
    rw [MerkleVerifiers.verifySingleProof] at accepted ⊢
    rw [MerkleOptimized.verifySingleProof]
    obtain ⟨path, parsed, accepted⟩ := ok_of_bind accepted
    simp only at accepted
    by_cases other : (MerkleNodes.intoReferenceFromEncoded hash first).length = 32 ∧
        some (MerkleNodes.intoReferenceFromEncoded hash first) ≠ root
    · rw [if_pos other] at accepted
      obtain ⟨_, _, accepted⟩ := ok_of_bind accepted
      cases accepted
    · rw [if_neg other] at accepted
      simp only [parsed, bind, Except.bind, if_neg other]
      exact walk_verdict accepted w

end Walks

/- Batches. -/
section Batches
variable {keccak : Keccak} {T : NibbleTrie} {t : MerklePatriciaTrie}

def truthful (T : NibbleTrie) (claims : List (Bytes × Bytes)) : Bool :=
  claims.all fun c => lookup T (nibbles c.1) == some c.2

theorem truthful_cons {c : Bytes × Bytes} {v : Bytes} (found : lookup T (nibbles c.1) = some v)
    (claims : List (Bytes × Bytes)) :
    truthful T (c :: claims) = ((c.2 == v) && truthful T claims) := by
  have same : (some v == some c.2) = (c.2 == v) := by
    rw [Bool.eq_iff_iff, beq_iff_eq, beq_iff_eq, Option.some.injEq, eq_comm]
  rw [truthful, List.all_cons, found, same]
  rfl

theorem formsAlong_stored {scheme : Scheme} {limits : Limits} {codec : Codec scheme limits}
    {db : PutLog.Store Bytes Bytes} (stored : Written codec db T) (k : List Nat) {e : Bytes}
    (member : e ∈ (formsAlong codec T k).map codec.layout) : e ∈ db.puts.map Prod.snd := by
  induction T generalizing k with
  | empty => cases member
  | leaf p v =>
    obtain rfl := List.mem_singleton.mp member
    exact List.mem_map.mpr ⟨_, written_member stored (by simp), rfl⟩
  | ext p T ih =>
    rcases List.mem_cons.mp member with rfl | below
    · exact List.mem_map.mpr ⟨_, written_member stored (by simp), rfl⟩
    · exact ih (written_child stored .ext) _ below
  | branch cs w ih =>
    cases k with
    | nil =>
      obtain rfl := List.mem_singleton.mp member
      exact List.mem_map.mpr ⟨_, written_member stored (by simp), rfl⟩
    | cons i k =>
      rcases List.mem_cons.mp member with rfl | below
      · exact List.mem_map.mpr ⟨_, written_member stored (by simp), rfl⟩
      · exact ih i (written_child stored (.slot i)) _ below

section Tries
variable (good : Good keccakLimits t) (shown : Represents (keccakCodec keccak) T t)
include good shown

theorem proof_stored {key v : Bytes} (found : lookup T (nibbles key) = some v) {nodes : List Bytes}
    (made : getProofTree (keccakScheme keccak.hash) false t key = .ok nodes) :
    ∀ e ∈ nodes, e ∈ storedEncodings t := by
  cases made.symm.trans (getProofTree_forms good shown found)
  intro e member
  exact formsAlong_stored shown.written _ member

theorem plain_batch (claims : List (Bytes × Bytes))
    (known : ∀ c ∈ claims, lookup T (nibbles c.1) ≠ none) :
    ∃ commitments, (claims.map Prod.fst).mapM (getProofTree (keccakScheme keccak.hash) false t) =
        .ok commitments ∧
      (∀ e ∈ commitments.flatten, e ∈ storedEncodings t) ∧
      MerkleVerifiers.verifyEach keccak.hash (some (refOf (keccakCodec keccak) T))
        (commitments.zip ((claims.map Prod.fst).zip (claims.map Prod.snd))) =
          .ok (truthful T claims) := by
  induction claims with
  | nil => exact ⟨[], rfl, by simp, rfl⟩
  | cons c claims ih =>
    obtain ⟨v, found⟩ := Option.ne_none_iff_exists'.mp (known c List.mem_cons_self)
    obtain ⟨nodes, made, accepted⟩ := proof_of_key good shown found
    obtain ⟨commitments, rest, inside, each⟩ :=
      ih fun x member => known x (List.mem_cons_of_mem _ member)
    refine ⟨nodes :: commitments, ?_, ?_, ?_⟩
    · rw [List.map_cons, List.mapM_cons, made, rest]
      rfl
    · intro e member
      rw [List.flatten_cons] at member
      rcases List.mem_append.mp member with here | later
      · exact proof_stored good shown found made e here
      · exact inside e later
    · rw [truthful_cons found, List.map_cons, List.map_cons, List.zip_cons_cons, List.zip_cons_cons,
        MerkleVerifiers.verifyEach, (single_verdict accepted c.2).1]
      simp only [bind, Except.bind]
      cases c.2 == v
      · rfl
      · exact each

theorem shared_batch {nodes : List Bytes} {found : List (Bytes × MerkleOptimized.PathInfo)}
    (faithful : MerkleOptimized.Faithful nodes (getProofTree (keccakScheme keccak.hash) false t) found)
    (claims : List (Bytes × Bytes)) (known : ∀ c ∈ claims, lookup T (nibbles c.1) ≠ none)
    (listed : ∀ c ∈ claims, ∃ info, found.lookup c.1 = some info) :
    MerkleOptimized.verifyEach keccak.hash nodes found (some (refOf (keccakCodec keccak) T))
      ((claims.map Prod.fst).zip (claims.map Prod.snd)) = .ok (truthful T claims) := by
  induction claims with
  | nil => rfl
  | cons c claims ih =>
    obtain ⟨v, stored⟩ := Option.ne_none_iff_exists'.mp (known c List.mem_cons_self)
    obtain ⟨proof, made, accepted⟩ := proof_of_key good shown stored
    obtain ⟨info, present⟩ := listed c List.mem_cons_self
    obtain ⟨proof', same, read⟩ := faithful c.1 info present
    cases same.symm.trans made
    have each := ih (fun x member => known x (List.mem_cons_of_mem _ member))
      fun x member => listed x (List.mem_cons_of_mem _ member)
    rw [truthful_cons stored, List.map_cons, List.map_cons, List.zip_cons_cons,
      MerkleOptimized.verifyEach, present]
    simp only [read, (single_verdict accepted c.2).2, bind, Except.bind]
    cases c.2 == v
    · rfl
    · exact each

end Tries

/-- `verify_proof` on what the prover of single nodes returns for the claimed pairs. -/
def proveAndVerifyOptimized (pyHash : Bytes → Int) (keccak : Bytes → Bytes)
    (tree : MerklePatriciaTrie) (claims : List (Bytes × Bytes)) : Except PyError Bool := do
  let proof ← MerkleOptimized.generateProof pyHash (keccakScheme keccak) false tree
    (claims.map Prod.fst)
  MerkleOptimized.verifyProof keccak (claims.map Prod.snd) (claims.map Prod.fst) tree.rootValue proof

theorem both_batches (good : Good keccakLimits t) (shown : Represents (keccakCodec keccak) T t)
    (occupied : T ≠ .empty) {pyHash : Bytes → Int}
    (apart : ∀ a ∈ storedEncodings t, ∀ b ∈ storedEncodings t, pyHash a = pyHash b → a = b)
    {claims : List (Bytes × Bytes)} (known : ∀ c ∈ claims, lookup T (nibbles c.1) ≠ none) :
    proveAndVerify keccak.hash t claims = .ok (truthful T claims) ∧
      proveAndVerifyOptimized pyHash keccak.hash t claims = .ok (truthful T claims) := by
  have root := shown.rootValue.trans (rootOf_occupied _ occupied)
  have witness := rootHash_occupied shown occupied
  obtain ⟨commitments, proved, inside, each⟩ := plain_batch good shown claims known
  constructor
  · unfold proveAndVerify MerkleVerifiers.generateProof MerkleVerifiers.verifyProof
    simp only [proved, root, witness, ne_eq, not_true_eq_false, if_false, bind, Except.bind]
    exact each
  · obtain ⟨table, paths, ran, _, _, describes⟩ := MerkleOptimized.collectPaths_describes pyHash
      (claims.map Prod.fst) proved (sound_empty pyHash) 0 (by
        intro a first b second
        exact apart a (inside a (by simpa [Table.empty] using first)) b
          (inside b (by simpa [Table.empty] using second)))
    have start : MerkleOptimized.Faithful table.entries
        (getProofTree (keccakScheme keccak.hash) false t) [] := by
      intro key info absent
      simp at absent
    obtain ⟨found, dictionary, faithful, listed⟩ :=
      MerkleOptimized.keyToPathInfo_faithful [] (claims.map Prod.fst) rfl proved describes start
    rw [List.nil_append] at dictionary
    have shared := shared_batch good shown faithful claims known fun c member =>
      listed c.1 (Or.inr (List.mem_map_of_mem member))
    unfold proveAndVerifyOptimized MerkleOptimized.generateProof MerkleOptimized.verifyProof
    simp only [ran, root, witness, ne_eq, not_true_eq_false, if_false, dictionary, bind, Except.bind]
    exact shared

/-- In any session both verdicts on an honest batch are whether the claimed values are
    the ones last kept. -/
theorem batch_verdicts
    {s : List (Entry (keccakScheme keccak.hash) keccakLimits false) × MerklePatriciaTrie}
    (session : Session (trieKeeper (keccakCodec keccak) false) s) (occupied : s.1 ≠ [])
    (distinct : Separates keccak.hash (storedEncodings s.2)) {pyHash : Bytes → Int}
    (apart : ∀ a ∈ storedEncodings s.2, ∀ b ∈ storedEncodings s.2, pyHash a = pyHash b → a = b)
    {claims : List (Bytes × Bytes)} (known : ∀ c ∈ claims, lastKept s.1 c.1 ≠ none) :
    proveAndVerify keccak.hash s.2 claims =
        .ok (decide (∀ c ∈ claims, lastKept s.1 c.1 = some c.2)) ∧
      proveAndVerifyOptimized pyHash keccak.hash s.2 claims =
        .ok (decide (∀ c ∈ claims, lastKept s.1 c.1 = some c.2)) := by
  have shown := kept_some (session_kept keccak session distinct) occupied
  have held (key : Bytes) : lookup (trieOf (pathEntries s.1)) (nibbles key) = lastKept s.1 key :=
    kept_lookup s.1 key
  have verdict : truthful (trieOf (pathEntries s.1)) claims =
      decide (∀ c ∈ claims, lastKept s.1 c.1 = some c.2) := by
    rw [Bool.eq_iff_iff, truthful, List.all_eq_true, decide_eq_true_iff]
    simp only [held, beq_iff_eq]
  rw [← verdict]
  refine both_batches (session_good keccak session distinct) shown (kept_occupied occupied) apart ?_
  intro c member
  rw [held]
  exact known c member

end Batches

theorem batch_verdicts_sample :
    proveAndVerify spreadKeccak.hash secondTrie
        [(sampleBytes 107, sampleBytes 97), (sampleBytes 108, sampleBytes 97)] = .ok false ∧
      proveAndVerifyOptimized MerkleOptimized.samplePyHash spreadKeccak.hash secondTrie
        [(sampleBytes 107, sampleBytes 97), (sampleBytes 108, sampleBytes 97)] = .ok false := by
  have apart : ∀ a ∈ storedEncodings secondTrie, ∀ b ∈ storedEncodings secondTrie,
      MerkleOptimized.samplePyHash a = MerkleOptimized.samplePyHash b → a = b := by decide +kernel
  have known : ∀ c ∈ [(sampleBytes 107, sampleBytes 97), (sampleBytes 108, sampleBytes 97)],
      lastKept [firstEntry, secondEntry] c.1 ≠ none := by decide
  have wrong : decide (∀ c ∈ [(sampleBytes 107, sampleBytes 97), (sampleBytes 108, sampleBytes 97)],
      lastKept [firstEntry, secondEntry] c.1 = some c.2) = false := by decide
  rw [← wrong]
  exact batch_verdicts (firstTrie_session.trans secondTrie_step) (List.cons_ne_nil _ _)
    haltedDisk_facts.2.2 apart known

end MerkleBatches
