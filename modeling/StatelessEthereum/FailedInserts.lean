import StatelessEthereum.KeyCollisions

/- What an insert that raises leaves behind. The root of a tree is replaced at the
   end of an insert only, but where there is none it is made at the start. -/
namespace FailedInserts
open PythonError BigEndian StateEffect PutLog DiskLog ObjectHeap VerkleSerialization
open PolyUtils KzgSetup KzgScheme KeyCollisions
open VerkleTrees hiding insert get
open StemTree hiding insert lookup
open VerkleStorage VerkleRefinement VerkleKey VerkleRuns VerkleRefusal
variable {Point G1 G2 FQ12 : Type}

/-- The second state has the root of the first, as an object and by name, and answers
    as it does. -/
structure Untouched (scheme : Scheme Point) (t t' : VerkleTree Point) : Prop where
  root : t'.root = t.root
  object : ∀ id, t.root = some id → t'.objects.read id = t.objects.read id
  rootRef : t'.rootRef = t.rootRef
  rootFile : t'.disk.rootFile = t.disk.rootFile
  answers : ∀ key, VerkleTrees.get scheme t' key = VerkleTrees.get scheme t key
  proofs : ∀ key, getProofTree scheme t' key = getProofTree scheme t key

/-- An insert that raises leaves the tree as it was. -/
def FailsClean (scheme : Scheme Point) (t : VerkleTree Point) (key value : Word) : Prop :=
  ∀ e, (VerkleTrees.insert scheme key.bytes value.bytes t).1 = .error e →
    Untouched scheme t (VerkleTrees.insert scheme key.bytes value.bytes t).2

section Scheme
variable {scheme : Scheme Point} {bits : Nat} [NeZero scheme.width]

/-- What a tree answers to `get_proof_tree`. -/
theorem getProofTree_points (lawful : Lawful scheme) (cuts : Cuts scheme.width bits)
    {t : VerkleTree Point} {kids : Fin scheme.width → Trie scheme.width}
    (held : Holding scheme t kids) (rooted : Rooted kids (depth scheme.width))
    (valid : t.disk.db.Consistent) (key : Word) :
    getProofTree scheme t key.bytes =
      .ok (((proofPoints scheme (.inner kids) (stemOf scheme.width key)).drop 1).filterMap id) := by
  rw [getProofTree, splitKey_ok cuts key]
  rcases held with ⟨idle, rfl⟩ | ⟨id, p, standing, _, _⟩
  · obtain ⟨i, k, stem, _⟩ := stemOf_cons cuts key
    rw [stem]
    cases root : t.root with
    | none => simp [rootNode, root, proofPoints, bare, bind, Except.bind]
    | some id =>
      have enough : (i :: k).length + 2 ≤ walkLimit t.disk.db ((i :: k).map Fin.val) :=
        walkLimit_enough t.disk.db
      obtain ⟨limit, turns⟩ := Nat.exists_eq_succ_of_ne_zero
        (show walkLimit t.disk.db ((i :: k).map Fin.val) ≠ 0 by omega)
      simp only [bind, Except.bind, rootNode, root, Option.map_some]
      rw [turns]
      simp [proofFrom, idle.typed id root, idle.children id root, entry, proofPoints, bare, bind,
        Except.bind]
  · have points := proofFrom_points lawful valid (stemOf scheme.width key)
      (standing_object standing) (rooted_fits rooted cuts key) (walkLimit_enough t.disk.db)
    simp only [bind, Except.bind, rootNode, standing.root, Option.map_some, points]

theorem holding_answers (lawful : Lawful scheme) (cuts : Cuts scheme.width bits)
    {t t' : VerkleTree Point} {kids : Fin scheme.width → Trie scheme.width}
    (held : Holding scheme t kids) (held' : Holding scheme t' kids)
    (rooted : Rooted kids (depth scheme.width)) (valid : t.disk.db.Consistent)
    (valid' : t'.disk.db.Consistent) (key : Bytes) :
    VerkleTrees.get scheme t' key = VerkleTrees.get scheme t key ∧
      getProofTree scheme t' key = getProofTree scheme t key := by
  by_cases size : key.length = 32
  · let word : Word := ⟨key, size⟩
    have answer := get_lookup lawful cuts held rooted valid word
    have answer' := get_lookup lawful cuts held' rooted valid' word
    have proof := getProofTree_points lawful cuts held rooted valid word
    have proof' := getProofTree_points lawful cuts held' rooted valid' word
    exact ⟨answer'.trans answer.symm, proof'.trans proof.symm⟩
  · constructor
    · simp [VerkleTrees.get, splitKey, size, bind, Except.bind]
    · simp [getProofTree, splitKey, size, bind, Except.bind]

/-- The first insert has room exactly if the stem below the root fits into bytes. -/
theorem first_sound_iff (cuts : Cuts scheme.width bits) (key value : Word) :
    Sound (insertKey (.inner (bare : Fin scheme.width → Trie scheme.width)) key value) ↔
      ∀ c ∈ (keyChunks scheme.width key.bytes).dropLast.tail, c < 256 := by
  obtain ⟨i, k, stem, size⟩ := stemOf_cons cuts key
  have few := Nat.div_le_self 256 scheme.width.log2
  have short : k.length < 256 := by rw [size, depth]; omega
  have chunks : (keyChunks scheme.width key.bytes).dropLast.tail = k.map Fin.val := by
    have digits : (keyChunks scheme.width key.bytes).dropLast =
        (stemOf scheme.width key).map Fin.val := by
      rw [← keyDigits_val cuts, stemOf, List.map_dropLast]
    rw [digits, stem, List.map_cons, List.tail_cons]
  rw [chunks, insertKey, stem, StemTree.insert]
  constructor
  · intro sound c member
    obtain ⟨d, inside, rfl⟩ := List.mem_map.mp member
    have here := sound i
    rw [Function.update_self] at here
    exact here.narrow d inside
  · intro narrow
    refine sound_update sound_bare ?_ i
    exact storable_words short fun c member => narrow c.val (List.mem_map_of_mem member)

variable (lawful : Lawful scheme) (refuses : Refuses scheme) (cuts : Cuts scheme.width bits)
include lawful refuses cuts

/-- Where there is a root, whatever raises has changed new objects only. -/
theorem rooted_clean {t : VerkleTree Point} {kids : Fin scheme.width → Trie scheme.width}
    (held : Holding scheme t kids) (rooted : Rooted kids (depth scheme.width)) {root : Nat}
    (there : t.root = some root) (key value : Word)
    (valid : (VerkleTrees.insert scheme key.bytes value.bytes t).2.disk.db.Consistent) :
    FailsClean scheme t key value := by
  intro e raised
  have earlier := consistent_earlier (insert_grows key.bytes value.bytes t) valid
  have wide : ¬ Sound (insertKey (.inner kids) key value) := by
    intro sound
    obtain ⟨_, _, _, fine, _⟩ := insert_represents lawful cuts held rooted key value sound earlier
    cases raised.symm.trans fine
  obtain ⟨root', t₁, e', t₂, made, run, spared⟩ :=
    refused_run lawful refuses cuts held rooted key value wide earlier
  have same : t₁ = t := by
    simp only [ensureRoot, bind_run, reads_run, there, pure_run, Prod.mk.injEq] at made
    exact made.2.symm
  subst same
  rw [run] at valid ⊢
  have held' := holding_spares held spared
  refine ⟨spared.root, ?_, spared.rootRef, spared.rootFile, ?_, ?_⟩
  · intro id named
    have present : id < t₁.objects.size := by
      rcases held with ⟨idle, _⟩ | ⟨id', p, standing, _, _⟩
      · exact idle.held id named
      · cases named.symm.trans standing.root
        exact standing.shows.held
    exact spared.objects id present fun none => none
  · exact fun key => (holding_answers lawful cuts held held' rooted earlier valid key).1
  · exact fun key => (holding_answers lawful cuts held held' rooted earlier valid key).2

theorem unrooted_left {t : VerkleTree Point} {kids : Fin scheme.width → Trie scheme.width}
    (held : Holding scheme t kids) (rooted : Rooted kids (depth scheme.width))
    (gone : t.root = none) (key value : Word)
    (wide : ¬ Sound (insertKey (.inner kids) key value)) (valid : t.disk.db.Consistent) :
    (∃ e, (VerkleTrees.insert scheme key.bytes value.bytes t).1 = .error e) ∧
      (VerkleTrees.insert scheme key.bytes value.bytes t).2.root ≠ none := by
  obtain ⟨root, t₁, e, t₂, made, run, spared⟩ :=
    refused_run lawful refuses cuts held rooted key value wide valid
  simp only [ensureRoot, bind_run, reads_run, gone, allocate_run, modify_run, pure_run,
    Prod.mk.injEq] at made
  rw [run]
  refine ⟨⟨e, rfl⟩, ?_⟩
  rw [spared.root, ← made.2]
  exact Option.some_ne_none _

theorem fails_clean_iff {t : VerkleTree Point} (reached : Reached scheme t) (key value : Word)
    (valid : (VerkleTrees.insert scheme key.bytes value.bytes t).2.disk.db.Consistent) :
    FailsClean scheme t key value ↔
      t.root ≠ none ∨ ∀ c ∈ (keyChunks scheme.width key.bytes).dropLast.tail, c < 256 := by
  have earlier := consistent_earlier (insert_grows key.bytes value.bytes t) valid
  obtain ⟨kids, held, rooted⟩ := reached_holding lawful refuses cuts reached earlier
  cases there : t.root with
  | some root =>
    simp only [ne_eq, reduceCtorEq, not_false_eq_true, true_or, iff_true]
    exact rooted_clean lawful refuses cuts held rooted there key value valid
  | none =>
    have empty : kids = bare := by
      rcases held with ⟨_, rfl⟩ | ⟨id, p, standing, _, _⟩
      · rfl
      · cases there.symm.trans standing.root
    subst empty
    simp only [ne_eq, not_true_eq_false, false_or]
    rw [← first_sound_iff cuts key value]
    constructor
    · intro clean
      by_contra wide
      obtain ⟨⟨e, raised⟩, left⟩ :=
        unrooted_left lawful refuses cuts held rooted there key value wide earlier
      exact left ((clean e raised).root.trans there)
    · intro sound e raised
      obtain ⟨_, _, _, fine, _⟩ :=
        insert_represents lawful cuts held rooted key value sound earlier
      cases raised.symm.trans fine

end Scheme

/- The setups of the code. -/
section Setups
variable (curve : Curve Point2D G1 G2 FQ12) (logFloor : Nat → Nat) (sha256 : Bytes → Bytes)
  {zlib : Zlib} (lossless : zlib.Lossless) {width secret : Nat} {setup : SetupObject G1 G2}
  (made : verkleKzgSetup curve secret width = .ok setup)
include lossless made

/-- A failed insert leaves the tree as it was exactly if the tree had a root before, or
    no chunk between the first and the last is above 255. -/
theorem failed_insert_clean_iff {t : VerkleTree Point2D}
    (reached : Reached (plainScheme curve logFloor sha256 zlib setup) t) (key value : Word)
    (valid : (VerkleTrees.insert (plainScheme curve logFloor sha256 zlib setup) key.bytes
      value.bytes t).2.disk.db.Consistent) :
    FailsClean (plainScheme curve logFloor sha256 zlib setup) t key value ↔
      t.root ≠ none ∨ ∀ c ∈ (keyChunks width key.bytes).dropLast.tail, c < 256 := by
  obtain ⟨k, w, laid⟩ := made_laid
    (show verkleKzgSetup (plainBackend curve logFloor sha256 zlib).curve secret width = .ok setup
      from made)
  have lawful : Lawful (plainScheme curve logFloor sha256 zlib setup) :=
    laid_lawful (plainFormat_faithful sha256 lossless) laid
  have same : (plainScheme curve logFloor sha256 zlib setup).width = width := made_width made
  have positive : NeZero (plainScheme curve logFloor sha256 zlib setup).width :=
    ⟨Nat.ne_of_gt (width_positive laid.cuts)⟩
  rw [← same]
  exact fails_clean_iff lawful (kzg_refuses _ setup) laid.cuts reached key value valid

omit lossless made in
theorem sampleInsert_consistent :
    (VerkleTrees.insert (plainScheme sampleCurve sampleLogFloor sampleSha256 sampleZlib sampleSetup)
      sampleKey.bytes sampleValue.bytes emptyTree).2.disk.db.Consistent := by
  have valid := sampleRun_consistent
  rw [insertRun, insertEach, forEach_single] at valid
  simp only [entry_word] at valid
  exact valid

omit lossless made in
theorem failed_insert_clean_sample :
    FailsClean (plainScheme sampleCurve sampleLogFloor sampleSha256 sampleZlib sampleSetup)
      emptyTree sampleKey sampleValue :=
  (failed_insert_clean_iff sampleCurve sampleLogFloor sampleSha256 sampleZlib_lossless
    sampleSetup_made .empty sampleKey sampleValue sampleInsert_consistent).mpr
      (Or.inr (by decide))

end Setups

def wideKey : Word := ⟨List.replicate 32 0xff, rfl⟩

theorem candidate_wide : ∃ root, rootOfUnityCandidates.lookup 512 = some root := ⟨_, rfl⟩

/-- The first insert into a tree of the largest width raises, and `self.root` is no
    longer `None`. -/
theorem empty_root_left : ∃ setup, verkleKzgSetup sampleCurve 5 512 = .ok setup ∧
    ¬ FailsClean (plainScheme sampleCurve sampleLogFloor sampleSha256 sampleZlib setup) emptyTree
      wideKey sampleValue := by
  obtain ⟨root, found⟩ := candidate_wide
  obtain ⟨setup, _, made, _, _⟩ := verkleKzgSetup_standard sampleCurve 5 found
  refine ⟨setup, made, ?_⟩
  obtain ⟨k, w, laid⟩ := made_laid
    (show verkleKzgSetup (plainBackend sampleCurve sampleLogFloor sampleSha256 sampleZlib).curve 5
      512 = .ok setup from made)
  let scheme := plainScheme sampleCurve sampleLogFloor sampleSha256 sampleZlib setup
  have lawful : Lawful scheme :=
    laid_lawful (plainFormat_faithful sampleSha256 sampleZlib_lossless) laid
  have same : scheme.width = 512 := made_width made
  have positive : NeZero scheme.width := ⟨Nat.ne_of_gt (width_positive laid.cuts)⟩
  have wide : ¬ Sound (insertKey (.inner (bare : Fin scheme.width → Trie scheme.width)) wideKey
      sampleValue) := by
    rw [first_sound_iff laid.cuts, same]
    decide
  obtain ⟨⟨e, raised⟩, left⟩ := unrooted_left lawful (kzg_refuses _ setup) laid.cuts
    (Or.inl ⟨idle_empty scheme, rfl⟩) (rooted_bare _) rfl wideKey sampleValue wide (by decide)
  exact fun clean => left (clean e raised).root

end FailedInserts
