import StatelessEthereum.MerkleCompleteness

/- What an accepted proof says about the tree, whoever made it. A first node
   too short to be hashed cannot carry a whole key, since everything below it
   must fit inside it; a longer one must be the stored root, and from there each
   link leads to the stored child. -/
namespace MerkleSoundness
open PythonError BigEndian RlpFormat NibblePaths MerkleNodes MerkleForms PutLog DiskLog CompactTrie
open MerkleTrees hiding insert get
open MerkleStorage MerkleRefinement MerkleRuns MerkleCollect MerkleVerifiers MerkleCompleteness

/- Sizes. -/

theorem ofCheckedDigits_len {digits : List Nat} {offset width : Nat} {path : NibblePath}
    (built : ofCheckedDigits digits offset width = .ok path) : path.len ≤ digits.length := by
  unfold ofCheckedDigits at built
  split at built
  · simp only [Except.ok.injEq] at built
    subst built
    exact Nat.sub_le _ _
  · simp at built

theorem ofDigits_len {digits : List Nat} {offset width : Nat} {path : NibblePath}
    (built : ofDigits digits offset width = .ok path) : path.len ≤ digits.length := by
  obtain ⟨_, _, checked⟩ := ok_of_bind built
  exact ofCheckedDigits_len checked

theorem ofBytes_len {data : Bytes} {offset : Nat} {path : NibblePath}
    (built : NibblePaths.ofBytes data offset 16 = .ok path) : path.len ≤ 2 * data.length := by
  obtain ⟨p, known, _, rest⟩ := ofBytes_hex data offset
  rw [known, Except.ok.injEq] at built
  subst built
  rw [← NibblePath.remaining_length, rest, List.length_drop, nibbles_length]
  exact Nat.sub_le _ _

theorem decodeWithType_len {data : Bytes} {path : NibblePath} {isLeaf : Bool}
    (decoded : decodeWithType data = .ok (path, isLeaf)) : path.len ≤ 2 * data.length := by
  unfold decodeWithType at decoded
  split at decoded
  · simp at decoded
  · rename_i first more
    split at decoded
    · split at decoded
      · simp at decoded
      · dsimp only at decoded
        split at decoded
        · simp at decoded
        · obtain ⟨p, built, same⟩ := ok_of_bind decoded
          cases same
          have size := ofDigits_len built
          simp only [List.length_map, List.length_take, List.length_drop] at size
          omega
    · obtain ⟨p, built, same⟩ := ok_of_bind decoded
      cases same
      exact ofBytes_len built

theorem decodePath_len {x : Item} {path : NibblePath} {isLeaf : Bool}
    (decoded : Node.decodePath x = .ok (path, isLeaf)) : path.len ≤ 2 * x.encode.length := by
  cases x with
  | str b =>
    have size := decodeWithType_len decoded
    have inside := payload_le_encode (.str b)
    simp only [Item.payload] at inside
    omega
  | list xs => cases xs <;> simp [Node.decodePath] at decoded

theorem usage_length {x : Item} {b : Bytes}
    (used : prepareReferenceForUsage (.ofItem x) = .ok (.bytes b)) :
    b.length ≤ x.encode.length := by
  cases x with
  | str a =>
    simp only [PyObj.ofItem, prepareReferenceForUsage, Except.ok.injEq, PyObj.bytes.injEq] at used
    exact used ▸ payload_le_encode (.str a)
  | list xs =>
    obtain ⟨encoded, made, same⟩ := ok_of_bind used
    cases same
    unfold rlpEncode at made
    split at made
    · cases made; exact Nat.le_refl _
    · simp at made

/-- What a node decoded from `n` bytes can hold: a path and a reference that fit
    in them together, or references that each fit. -/
def Fitting (n : Nat) : Node → Prop
  | .leaf path _ => path.len ≤ 2 * n
  | .extension path nextRef => ∀ b, nextRef = .bytes b → path.len + 2 * b.length ≤ 2 * n
  | .branch branches _ => ∀ b, PyObj.bytes b ∈ branches → b.length < n

theorem mapM_member {α β : Type} {g : α → Except PyError β} {xs : List α} {ys : List β}
    (mapped : xs.mapM g = .ok ys) {y : β} (member : y ∈ ys) : ∃ x ∈ xs, g x = .ok y := by
  induction xs generalizing ys with
  | nil =>
    cases mapped
    simp at member
  | cons x xs ih =>
    rw [List.mapM_cons] at mapped
    obtain ⟨first, here, mapped⟩ := ok_of_bind mapped
    obtain ⟨rest, later, same⟩ := ok_of_bind mapped
    cases same
    rcases List.mem_cons.mp member with rfl | older
    · exact ⟨x, by simp, here⟩
    · obtain ⟨z, inside, value⟩ := ih later older
      exact ⟨z, by simp [inside], value⟩

theorem decodeList_fitting {data : List Item} {node : Node}
    (decoded : Node.decodeList data = .ok node) : Fitting (Item.list data).encode.length node := by
  unfold Node.decodeList at decoded
  split at decoded
  · rename_i first second
    have payload := list_payload_lt_encode [first, second]
    simp only [encodeAll, List.length_append, List.length_nil] at payload
    obtain ⟨⟨path, isLeaf⟩, pathDecoded, decoded⟩ := ok_of_bind decoded
    have size := decodePath_len pathDecoded
    simp only at decoded
    split at decoded
    · cases decoded
      simp only [Fitting]
      omega
    · obtain ⟨ref, used, same⟩ := ok_of_bind decoded
      cases same
      rintro b rfl
      have inside := usage_length used
      omega
  · split at decoded
    · simp at decoded
    · obtain ⟨branches, mapped, same⟩ := ok_of_bind decoded
      cases same
      intro b member
      obtain ⟨x, inside, used⟩ := mapM_member mapped member
      have fits := usage_length used
      have smaller := encode_lt_list (List.dropLast_subset _ inside)
      omega

theorem decode_fitting {encoded : Bytes} {node : Node} (decoded : Node.decode encoded = .ok node) :
    Fitting encoded.length node := by
  obtain ⟨item, read, body⟩ := ok_of_bind decoded
  have whole : item.encode = encoded := by
    unfold rlpDecode at read
    split at read
    · rename_i found
      cases read
      exact (encode_decode found).2
    · simp at read
  subst whole
  cases item with
  | str b =>
    change Node.decodeString b = .ok node at body
    unfold Node.decodeString at body
    split at body
    · simp at body
    · split at body
      · simp at body
      · cases body
        intro c member
        obtain ⟨x, _, same⟩ := List.mem_map.mp member
        cases same
  | list data => exact decodeList_fitting body

section Walks
variable {hash : Bytes → Bytes} {value : Bytes}

theorem isBytes_iff (o : PyObj) (b : Bytes) : o.isBytes b = true ↔ o = .bytes b := by
  cases o <;> simp [PyObj.isBytes]

/-- An accepted walk goes on, and its reference is the one of the next node. -/
theorem linked_next {ref : PyObj} {rest : List Bytes} {path : NibblePath}
    (link : linked hash ref rest = true) (accepted : walkProof hash value rest path = .ok true) :
    ∃ next more, rest = next :: more ∧ ref = .bytes (intoReferenceFromEncoded hash next) := by
  cases rest with
  | nil => simp [walkProof] at accepted
  | cons next more => exact ⟨next, more, rfl, (isBytes_iff _ _).mp link⟩

/-- What the verifier has checked at a node of an accepted walk. -/
def Checked (hash : Bytes → Bytes) (value : Bytes) (rest : List Bytes) (path : NibblePath) :
    Node → Prop
  | .leaf nodePath data => nodePath.remaining = path.remaining ∧ data = .bytes value
  | .extension nodePath nextRef => nodePath.remaining <+: path.remaining ∧
      ∃ next more, rest = next :: more ∧ nextRef = .bytes (intoReferenceFromEncoded hash next) ∧
        walkProof hash value rest (path.consume nodePath.len) = .ok true
  | .branch branches data => (path.len = 0 ∧ data = .bytes value) ∨
      path.len ≠ 0 ∧ ∃ idx next more, path.atIndex 0 = .ok idx ∧ rest = next :: more ∧
        entry branches idx = .ok (.bytes (intoReferenceFromEncoded hash next)) ∧
        intoReferenceFromEncoded hash next ≠ [] ∧
        walkProof hash value rest (path.consume 1) = .ok true

theorem walk_step {encoded : Bytes} {rest : List Bytes} {path : NibblePath}
    (accepted : walkProof hash value (encoded :: rest) path = .ok true) :
    ∃ node, Node.decode encoded = .ok node ∧ Checked hash value rest path node := by
  unfold walkProof at accepted
  cases decoded : Node.decode encoded with
  | error e => simp [decoded] at accepted
  | ok node =>
    refine ⟨node, rfl, ?_⟩
    rw [decoded] at accepted
    cases node with
    | leaf nodePath data =>
      simp only at accepted
      split at accepted
      · simp at accepted
      · rename_i same
        split at accepted
        · cases data <;> simp [printHex, bind, Except.bind] at accepted
        · rename_i stored
          simp only [Bool.not_eq_true, Bool.not_eq_false'] at same stored
          exact ⟨(NibblePath.eq_iff _ _).mp same, (isBytes_iff _ _).mp stored⟩
    | extension nodePath nextRef =>
      simp only at accepted
      split at accepted
      · simp at accepted
      · rename_i starts
        split at accepted
        · simp at accepted
        · rename_i link
          simp only [Bool.not_eq_true, Bool.not_eq_false'] at starts link
          obtain ⟨next, more, shape, ref⟩ := linked_next link accepted
          exact ⟨(NibblePath.startsWith_iff _ _).mp starts, next, more, shape, ref, accepted⟩
    | branch branches data =>
      simp only at accepted
      split at accepted
      · rename_i ended
        exact Or.inl ⟨ended, (isBytes_iff _ _).mp (Except.ok.inj accepted)⟩
      · rename_i going
        obtain ⟨idx, digit, indexed⟩ := ok_of_bind accepted
        obtain ⟨branchRef, held, measured⟩ := ok_of_bind indexed
        obtain ⟨length, size, checked⟩ := ok_of_bind measured
        split at checked
        · simp at checked
        · rename_i some
          split at checked
          · cases branchRef <;> simp [printHex, bind, Except.bind] at checked
          · rename_i link
            simp only [Bool.not_eq_true, Bool.not_eq_false'] at link
            obtain ⟨next, more, shape, rfl⟩ := linked_next link checked
            refine Or.inr ⟨going, idx, next, more, digit, shape, held, ?_, checked⟩
            intro none
            simp [PyObj.len, none] at size
            exact some size.symm

theorem reference_short (hash_size : ∀ b, (hash b).length = 32) (next : Bytes)
    (small : (intoReferenceFromEncoded hash next).length < 32) :
    next.length < 32 ∧ intoReferenceFromEncoded hash next = next := by
  unfold intoReferenceFromEncoded at small ⊢
  split at small
  · rw [hash_size] at small
    omega
  · rename_i short
    rw [if_neg short]
    exact ⟨small, rfl⟩

/-- A node too short to be hashed bounds the path that is still to come: what
    it links to lies inside it, so is shorter still. -/
theorem walk_short (hash_size : ∀ b, (hash b).length = 32) {encoded : Bytes} {rest : List Bytes}
    {path : NibblePath} (short : encoded.length < 32)
    (accepted : walkProof hash value (encoded :: rest) path = .ok true) :
    path.len ≤ 2 * encoded.length := by
  induction rest generalizing encoded path with
  | nil =>
    obtain ⟨node, decoded, checked⟩ := walk_step accepted
    have fits := decode_fitting decoded
    cases node with
    | leaf nodePath data =>
      have same := congrArg List.length checked.1
      simp only [NibblePath.remaining_length] at same
      simp only [Fitting] at fits
      omega
    | extension nodePath nextRef =>
      obtain ⟨_, _, _, shape, _⟩ := checked
      simp at shape
    | branch branches data =>
      rcases checked with ⟨ended, _⟩ | ⟨_, _, _, _, _, shape, _⟩
      · omega
      · simp at shape
  | cons next more ih =>
    obtain ⟨node, decoded, checked⟩ := walk_step accepted
    have fits := decode_fitting decoded
    cases node with
    | leaf nodePath data =>
      have same := congrArg List.length checked.1
      simp only [NibblePath.remaining_length] at same
      simp only [Fitting] at fits
      omega
    | extension nodePath nextRef =>
      obtain ⟨_, _, _, shape, rfl, later⟩ := checked
      cases shape
      have room := fits _ rfl
      obtain ⟨shorter, inline⟩ := reference_short hash_size next (by omega)
      have below := ih shorter later
      rw [NibblePath.len_consume] at below
      rw [inline] at room
      omega
    | branch branches data =>
      rcases checked with ⟨ended, _⟩ | ⟨_, idx, _, _, _, shape, held, _, later⟩
      · omega
      · cases shape
        have room := fits _ (entry_member held)
        obtain ⟨shorter, inline⟩ := reference_short hash_size next (by omega)
        have below := ih shorter later
        rw [NibblePath.len_consume] at below
        rw [inline] at room
        omega

end Walks

section Stored
variable {keccak : Keccak} {db : Store Bytes Bytes}

/-- A node linked by the reference of a trie on disk is that trie's top node. -/
theorem linked_stored {t : NibbleTrie} (stored : Written (keccakCodec keccak) db t)
    (occupied : t ≠ .empty) {next : Bytes} {others : List Bytes}
    (distinct : Separates keccak.hash (db.puts.map Prod.snd ++ next :: others))
    (link : intoReferenceFromEncoded keccak.hash next = refOf (keccakCodec keccak) t) :
    next = (nodeItem (formOf (keccakCodec keccak) t)).encode := by
  have whole := refOf_length (keccakCodec keccak) occupied
  have digest : keccak.hash next = refOf (keccakCodec keccak) t := by
    by_cases short : (intoReferenceFromEncoded keccak.hash next).length < 32
    · rw [link, whole] at short
      omega
    · unfold intoReferenceFromEncoded at link short
      split at link
      · exact link
      · rename_i small
        rw [if_neg small] at short
        omega
  refine distinct _ (by simp) _ ?_ ?_
  · have member := written_member stored occupied
    exact List.mem_append_left _ (List.mem_map.mpr ⟨_, member, rfl⟩)
  · rw [digest, refOf_occupied occupied]
    rfl

theorem later_nodes (encodings rest : List Bytes) (next : Bytes) :
    encodings ++ rest ⊆ encodings ++ next :: rest :=
  List.append_subset.mpr ⟨List.subset_append_left _ _,
    fun _ member => List.mem_append_right _ (List.mem_cons_of_mem _ member)⟩

/-- From a node of a trie on disk whose keys all end where the path ends, an
    accepted walk ends at the value under the path. -/
theorem walk_stored (good : Admissible keccakLimits db) {t : NibbleTrie}
    (valid : Valid keccakLimits t) (stored : Written (keccakCodec keccak) db t)
    (occupied : t ≠ .empty) {rest : List Bytes} {path : NibblePath} {value : Bytes}
    (distinct : Separates keccak.hash (db.puts.map Prod.snd ++ rest))
    (ends : ∀ k v, lookup t k = some v → k.length = path.len)
    (accepted : walkProof keccak.hash value
      ((nodeItem (formOf (keccakCodec keccak) t)).encode :: rest) path = .ok true) :
    lookup t path.remaining = some value := by
  induction t generalizing rest path with
  | empty => exact absurd rfl occupied
  | leaf p w =>
    obtain ⟨node, loaded, shows⟩ := decode_trie good valid stored occupied
    obtain ⟨_, decoded, checked⟩ := walk_step accepted
    cases decoded.symm.trans loaded
    cases node <;> simp only [formOf, Shows] at shows
    obtain ⟨_, rfl, rfl⟩ := shows
    obtain ⟨same, equal⟩ := checked
    cases equal
    simp [lookup, same]
  | ext p t ih =>
    obtain ⟨node, loaded, shows⟩ := decode_trie good valid stored occupied
    obtain ⟨_, decoded, checked⟩ := walk_step accepted
    cases decoded.symm.trans loaded
    cases node <;> simp only [formOf, Shows] at shows
    rename_i nodePath nextRef
    obtain ⟨_, rfl, rfl⟩ := shows
    obtain ⟨covered, next, more, rfl, link, later⟩ := checked
    have below := valid_child valid .ext
    have storedBelow := written_child stored .ext
    have held := below_ext valid
    have same := linked_stored storedBelow held distinct (PyObj.bytes.inj link).symm
    rw [same] at later
    have found := ih below storedBelow held
      (separates_subset (later_nodes _ _ _) distinct) ?_ later
    · simpa [lookup, covered] using found
    · intro k v answer
      have whole := ends (nodePath.remaining ++ k) v (by simpa [lookup] using answer)
      rw [List.length_append, NibblePath.remaining_length] at whole
      rw [NibblePath.len_consume]
      omega
  | branch cs w ih =>
    obtain ⟨node, loaded, shows⟩ := decode_trie good valid stored occupied
    obtain ⟨_, decoded, checked⟩ := walk_step accepted
    cases decoded.symm.trans loaded
    cases node <;> simp only [formOf, Shows] at shows
    obtain ⟨rfl, rfl⟩ := shows_branch_inv shows
    rcases checked with ⟨ended, _⟩ | ⟨going, i, next, more, digit, rfl, slot, some, later⟩
    · -- a branch has keys below it, so no key ends at one
      obtain ⟨i, _, held⟩ := occupied_slot valid
      obtain ⟨k, v, answer⟩ := occupied_has_key (valid.canonical.1 i) held
      have whole := ends (i :: k) v answer
      simp only [List.length_cons] at whole
      omega
    · obtain ⟨j, rest, shape⟩ : ∃ j rest, path.remaining = j :: rest := by
        cases shape : path.remaining with
        | nil => exact absurd ((NibblePath.len_eq_zero_iff path).mpr shape) going
        | cons j rest => exact ⟨j, rest, rfl⟩
      obtain ⟨size, first, tail⟩ := path_cons shape
      rw [first, Except.ok.injEq] at digit
      subst digit
      have inside : j < 16 := by
        by_contra outside
        simp [entry, slotsOf, outside] at slot
      rw [entry_slotsOf inside] at slot
      have link := (PyObj.bytes.inj (Except.ok.inj slot)).symm
      have held : cs j ≠ .empty := fun gone => some (link.trans ((refOf_eq_nil_iff _).mpr gone))
      have below := valid_child valid (.slot j)
      have storedBelow := written_child stored (.slot j)
      have same := linked_stored storedBelow held distinct link
      rw [same] at later
      have found := ih j below storedBelow held
        (separates_subset (later_nodes _ _ _) distinct) ?_ later
      · rw [shape, lookup]
        rwa [tail] at found
      · intro k v answer
        have whole := ends (j :: k) v answer
        rw [List.length_cons] at whole
        rw [NibblePath.len_consume]
        omega

end Stored

/-- Whatever the proof nodes, an accepted proof names the stored value. -/
theorem verified_value_stored (keccak : Keccak) (run : Run) (inserted : run ≠ [])
    (keys : ∀ e ∈ run, e.1.bytes.length = 32) (long : ∀ e ∈ run, 32 ≤ e.2.bytes.length)
    (proofNodes : List Bytes)
    (distinct : Separates keccak.hash
      (storedEncodings (insertRun (keccakScheme keccak.hash) run).2 ++ proofNodes))
    (key value : Bytes) (size : key.length = 32)
    (accepted : verifySingleProof keccak.hash proofNodes key value
      (some (rootHash (keccakScheme keccak.hash) (insertRun (keccakScheme keccak.hash) run).2)) =
        .ok true) :
    MerkleTrees.get (keccakScheme keccak.hash) false (insertRun (keccakScheme keccak.hash) run).2
      key = .ok (.bytes value) := by
  have stored : Separates keccak.hash
      (storedEncodings (insertRun (keccakScheme keccak.hash) run).2) :=
    separates_subset (List.subset_append_left _ _) distinct
  obtain ⟨_, shown⟩ := keccak_run keccak long stored
  have good := good_run keccak stored
  have occupied := occupied_run inserted
  rw [rootHash_occupied shown occupied] at accepted
  obtain ⟨path, parsed, _, digits⟩ := ofBytes_hex key 0
  have wholeKey : path.len = 64 := by
    rw [← NibblePath.remaining_length, digits, List.drop_zero, nibbles_length, size]
  have ends (k : List Nat) (v : Bytes) (answer : lookup (trieOf run.plain) k = some v) :
      k.length = path.len := (trieOf_lengths keys answer).trans wholeKey.symm
  cases proofNodes with
  | nil => simp [verifySingleProof] at accepted
  | cons first rest =>
    simp only [verifySingleProof, parsed, bind, Except.bind] at accepted
    split at accepted
    · simp [printHex, asReference] at accepted
    · rename_i agrees
      by_cases short : first.length < 32
      · have room := walk_short keccak.size short accepted
        omega
      · have hashed : intoReferenceFromEncoded keccak.hash first = keccak.hash first :=
          if_pos (by omega)
        have link : intoReferenceFromEncoded keccak.hash first =
            refOf (keccakCodec keccak) (trieOf run.plain) := by
          by_contra differ
          exact agrees ⟨by rw [hashed]; exact keccak.size _, by simpa using differ⟩
        have same := linked_stored shown.written occupied distinct link
        rw [same] at accepted
        have found := walk_stored good shown.valid shown.written occupied
          (separates_subset (later_nodes _ _ _) distinct) ends accepted
        rw [digits, List.drop_zero] at found
        exact get_lookup shown good found

/- Two keys of 32 bytes that part at their second digit, and the proofs of them
   that the prover makes: an extension, a branch and a leaf. -/

def keyRun : Run := [(sampleString 107, sampleString 97), (sampleString 108, sampleString 98)]

@[irreducible] def keyTrie : MerklePatriciaTrie := (insertRun (keccakScheme spreadKeccak.hash) keyRun).2

def keyProof (letter : UInt8) : List Bytes :=
  ((getProofTree (keccakScheme spreadKeccak.hash) false keyTrie (sampleBytes letter)).toOption).getD []

theorem keyProof_facts :
    (keyProof 107).length = 3 ∧
    Separates spreadKeccak.hash (storedEncodings keyTrie ++ keyProof 107) ∧
    verifySingleProof spreadKeccak.hash (keyProof 107) (sampleBytes 107) (sampleBytes 97)
      (some (rootHash (keccakScheme spreadKeccak.hash) keyTrie)) = .ok true := by
  unfold keyProof keyTrie
  decide +kernel

theorem verified_value_sample :
    MerkleTrees.get (keccakScheme spreadKeccak.hash) false keyTrie (sampleBytes 107) =
      .ok (.bytes (sampleBytes 97)) := by
  obtain ⟨_, distinct, accepted⟩ := keyProof_facts
  have long : ∀ e ∈ keyRun, 32 ≤ e.2.bytes.length := by decide
  unfold keyTrie at distinct accepted ⊢
  exact verified_value_stored spreadKeccak keyRun (by decide) (by decide) long (keyProof 107) distinct
    (sampleBytes 107) (sampleBytes 97) (by decide) accepted

end MerkleSoundness
