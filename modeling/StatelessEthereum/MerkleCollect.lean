import StatelessEthereum.MerkleRuns

/- What `get_proof_tree` collects: the encodings of the nodes on the walk along a
   key, from the root down, in whatever format the trie is kept. -/
namespace MerkleCollect
open PythonError BigEndian NibblePaths MerkleNodes MerkleForms PutLog DiskLog CompactTrie
open MerkleTrees hiding insert get
open MerkleStorage MerkleRefinement MerkleRuns
variable {scheme : Scheme} {limits : Limits} {codec : Codec scheme limits}

variable (codec) in
def formsAlong : NibbleTrie → List Nat → List Form
  | .empty, _ => []
  | .leaf p v, _ => [.leaf p v]
  | .ext p t, k => .ext p (refOf codec t) :: formsAlong t (k.drop p.length)
  | .branch cs v, [] => [formOf codec (.branch cs v)]
  | .branch cs v, i :: k => formOf codec (.branch cs v) :: formsAlong (cs i) k

section Walks
variable {db : Store Bytes Bytes}

theorem collectEncoded_trie (good : Admissible limits db) {t : NibbleTrie}
    (stored : Written codec db t) (occupied : t ≠ .empty) :
    collectEncoded db (.bytes (refOf codec t)) = .ok (codec.layout (formOf codec t)) := by
  have whole := refOf_length codec occupied
  have found := get_of_member good.consistent (written_member stored occupied)
  simp only [collectEncoded, PyObj.len, whole, found, bind, Except.bind, ↓reduceIte]

theorem decode_trie (good : Admissible limits db) {t : NibbleTrie} (valid : Valid limits t)
    (stored : Written codec db t) (occupied : t ≠ .empty) :
    ∃ node, scheme.decode (codec.layout (formOf codec t)) = .ok node ∧
      Shows node (formOf codec t) :=
  codec.loads _ (storable_formOf valid occupied fun _ child held =>
    written_refOk good (written_child stored child) held)

/-- Whatever the trie answers, the prover collects the nodes on the way to it. -/
theorem collect_forms (good : Admissible limits db) {t : NibbleTrie} (valid : Valid limits t)
    (stored : Written codec db t) (depth : Nat) (path : NibblePath) {v : Bytes}
    (found : lookup t path.remaining = some v) (deep : path.len < depth) :
    ∃ last, collect scheme db depth (.bytes (refOf codec t)) path =
        .ok ((formsAlong codec t path.remaining).map codec.layout, last) ∧
      ∀ message, nodeData message last = .ok (.bytes v) := by
  induction t generalizing depth path with
  | empty => simp [lookup] at found
  | leaf p w =>
    obtain ⟨depth, rfl⟩ := Nat.exists_eq_add_of_lt deep
    have encoded := collectEncoded_trie good stored (by simp)
    obtain ⟨node, loaded, shows⟩ := decode_trie good valid stored (by simp)
    cases node <;> simp only [formOf, Shows] at shows
    rename_i nodePath data
    obtain ⟨width, rfl, rfl⟩ := shows
    simp only [lookup, Option.ite_none_right_eq_some, Option.some.injEq] at found
    obtain ⟨same, rfl⟩ := found
    have equal := (NibblePath.eq_iff nodePath path).mpr same
    refine ⟨.leaf nodePath (.bytes w), ?_, fun _ => rfl⟩
    simp only [collect, encoded, loaded, equal, bind, Except.bind, ↓reduceIte]
    rfl
  | ext p t ih =>
    obtain ⟨depth, rfl⟩ := Nat.exists_eq_add_of_lt deep
    have encoded := collectEncoded_trie good stored (by simp)
    obtain ⟨node, loaded, shows⟩ := decode_trie good valid stored (by simp)
    cases node <;> simp only [formOf, Shows] at shows
    rename_i nodePath nextRef
    obtain ⟨width, rfl, rfl⟩ := shows
    simp only [lookup, Option.ite_none_right_eq_some] at found
    obtain ⟨covered, found⟩ := found
    have starts := (NibblePath.startsWith_iff path nodePath).mpr covered
    obtain ⟨some, fits⟩ := ext_covers valid covered
    have more : path.len ≠ 0 := by omega
    obtain ⟨last, walked, data⟩ := ih (valid_child valid .ext) (written_child stored .ext)
      (path.len + depth) (path.consume nodePath.len) (by simpa using found)
      (by rw [NibblePath.len_consume]; omega)
    refine ⟨last, ?_, data⟩
    simp only [collect, encoded, loaded, more, starts, walked, bind, Except.bind, Bool.not_true,
      Bool.false_eq_true, ↓reduceIte]
    rw [formsAlong, NibblePath.remaining_length, ← NibblePath.remaining_consume]
    rfl
  | branch cs w ih =>
    obtain ⟨depth, rfl⟩ := Nat.exists_eq_add_of_lt deep
    have encoded := collectEncoded_trie good stored (by simp)
    obtain ⟨node, loaded, shows⟩ := decode_trie good valid stored (by simp)
    cases node <;> simp only [formOf, Shows] at shows
    rename_i branches data
    obtain ⟨rfl, rfl⟩ := shows_branch_inv shows
    cases shape : path.remaining with
    | nil =>
      rw [shape] at found
      simp only [lookup] at found
      subst found
      have none : path.len = 0 := (NibblePath.len_eq_zero_iff path).mpr shape
      refine ⟨.branch (slotsOf codec cs) (.bytes v), ?_, fun _ => rfl⟩
      simp only [collect, encoded, loaded, none, bind, Except.bind, ↓reduceIte, Option.getD_some]
      rfl
    | cons i rest =>
      obtain ⟨size, digit, tail⟩ := path_cons shape
      rw [shape] at found
      simp only [lookup] at found
      have held := lookup_occupied found
      have inside := slot_inside valid held
      obtain ⟨last, walked, data⟩ := ih i (valid_child valid (.slot i))
        (written_child stored (.slot i)) (path.len + depth) (path.consume 1)
        (by rw [tail]; exact found) (by rw [NibblePath.len_consume]; omega)
      rw [tail] at walked
      have more : path.len ≠ 0 := by omega
      have whole := refOf_length codec held
      refine ⟨last, ?_, data⟩
      simp only [collect, encoded, loaded, more, digit, entry_slotsOf inside, PyObj.len, whole,
        walked, bind, Except.bind, ↓reduceIte, OfNat.ofNat_ne_zero]
      rfl

end Walks

theorem getProofTree_forms {t : NibbleTrie} {s : MerklePatriciaTrie} (good : Good limits s)
    (shown : Represents codec t s) {key v : Bytes} (found : lookup t (nibbles key) = some v) :
    getProofTree scheme false s key =
      .ok ((formsAlong codec t (nibbles key)).map codec.layout) := by
  obtain ⟨path, parsed, _, digits⟩ := keyPath_plain scheme key
  have root := shown.rootRef.trans (rootOf_occupied codec (lookup_occupied found))
  obtain ⟨last, walked, data⟩ := collect_forms good shown.valid shown.written (path.len + 1) path
    (by rw [digits]; exact found) (Nat.lt_succ_self _)
  rw [digits] at walked
  simp only [getProofTree, root, parsed, walked, data, bind, Except.bind]

theorem rootHash_occupied {t : NibbleTrie} {s : MerklePatriciaTrie} (shown : Represents codec t s)
    (occupied : t ≠ .empty) : rootHash scheme s = refOf codec t := by
  have root := shown.rootRef.trans (rootOf_occupied codec occupied)
  have whole := refOf_length codec occupied
  rw [rootHash, root]
  cases ref : refOf codec t with
  | nil =>
    rw [ref] at whole
    simp at whole
  | cons b bs =>
    rw [ref] at whole
    exact if_pos whole

end MerkleCollect
