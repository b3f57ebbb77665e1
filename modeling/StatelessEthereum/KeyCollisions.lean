import StatelessEthereum.VerkleRefusal
import StatelessEthereum.KzgScheme

/- Which keys share a place in the tree. The digits of a key are cut from the
   top, and what is left over at the bottom is in no digit; keys that differ
   above it never meet. -/
namespace KeyCollisions
open PythonError BigEndian PutLog DiskLog VerkleSerialization KzgSetup KzgScheme
open VerkleTrees hiding insert get
open StemTree hiding insert lookup
open VerkleStorage VerkleKey VerkleRuns VerkleRefusal
variable {Point G1 G2 FQ12 : Type}

/- Trees that inserts can lead to, those that raised among them. -/
section Reached
variable {scheme : Scheme Point}

inductive Reached (scheme : Scheme Point) : VerkleTree Point → Prop where
  | empty : Reached scheme emptyTree
  | insert {t : VerkleTree Point} (reached : Reached scheme t) (key : Bytes) (value : Word) :
      Reached scheme (VerkleTrees.insert scheme key value.bytes t).2
  | reopen {t reopened : VerkleTree Point} (reached : Reached scheme t)
      (opened : openTree scheme t.disk = .ok reopened) : Reached scheme reopened

theorem openTree_disk {disk : Disk} {t : VerkleTree Point} (opened : openTree scheme disk = .ok t) :
    t.disk = disk := by
  unfold openTree at opened
  split at opened
  · cases opened
    rfl
  · cases opened
    rfl
  · obtain ⟨root, _, same⟩ := ok_of_bind opened
    cases same
    rfl

variable {bits : Nat} [NeZero scheme.width] (lawful : Lawful scheme) (refuses : Refuses scheme)
  (cuts : Cuts scheme.width bits)
include lawful refuses cuts

theorem insert_holding {t : VerkleTree Point} {kids : Fin scheme.width → Trie scheme.width}
    (held : Holding scheme t kids) (rooted : Rooted kids (depth scheme.width)) (key value : Word)
    (valid : t.disk.db.Consistent) :
    ∃ kids', Holding scheme (VerkleTrees.insert scheme key.bytes value.bytes t).2 kids' ∧
      Rooted kids' (depth scheme.width) ∧
      (kids' = kids ∨ insertKey (.inner kids) key value = .inner kids') := by
  by_cases sound : Sound (insertKey (.inner kids) key value)
  · obtain ⟨kids', tree, rooted', _, shown⟩ :=
      insert_represents lawful cuts held rooted key value sound valid
    exact ⟨kids', Or.inr shown, rooted', Or.inr tree⟩
  · exact ⟨kids, (insert_refused lawful refuses cuts held rooted key value sound valid).2, rooted,
      Or.inl rfl⟩

theorem reached_holding {t : VerkleTree Point} (reached : Reached scheme t)
    (valid : t.disk.db.Consistent) : ∃ kids : Fin scheme.width → Trie scheme.width,
      Holding scheme t kids ∧ Rooted kids (depth scheme.width) := by
  induction reached with
  | empty => exact ⟨bare, Or.inl ⟨idle_empty scheme, rfl⟩, rooted_bare _⟩
  | @insert t _ key value ih =>
    have earlier := consistent_earlier (insert_grows key value.bytes t) valid
    obtain ⟨kids, held, rooted⟩ := ih earlier
    by_cases size : key.length = 32
    · obtain ⟨kids', held', rooted', _⟩ :=
        insert_holding lawful refuses cuts held rooted ⟨key, size⟩ value earlier
      exact ⟨kids', held', rooted'⟩
    · have same : (VerkleTrees.insert scheme key value.bytes t).2 = t := by
        simp [VerkleTrees.insert, splitKey, size, StateEffect.bind_run]
      rw [same]
      exact ⟨kids, held, rooted⟩
  | @reopen t reopened _ opened ih =>
    have disk := openTree_disk opened
    obtain ⟨kids, held, rooted⟩ := ih (disk ▸ valid)
    obtain ⟨again, opened', _, held'⟩ := openTree_holding lawful held (disk ▸ valid)
    cases opened.symm.trans opened'
    exact ⟨kids, held', rooted⟩

/-- An insert leaves what `get` answers for a key with other chunks. -/
theorem insert_apart {t : VerkleTree Point} (reached : Reached scheme t) (key key' value : Word)
    (apart : keyChunks scheme.width key.bytes ≠ keyChunks scheme.width key'.bytes)
    (valid : (VerkleTrees.insert scheme key.bytes value.bytes t).2.disk.db.Consistent) :
    VerkleTrees.get scheme (VerkleTrees.insert scheme key.bytes value.bytes t).2 key'.bytes =
      VerkleTrees.get scheme t key'.bytes := by
  have earlier := consistent_earlier (insert_grows key.bytes value.bytes t) valid
  obtain ⟨kids, held, rooted⟩ := reached_holding lawful refuses cuts reached earlier
  obtain ⟨kids', held', rooted', change⟩ :=
    insert_holding lawful refuses cuts held rooted key value earlier
  rw [get_lookup lawful cuts held rooted earlier, get_lookup lawful cuts held' rooted' valid]
  rcases change with rfl | tree
  · rfl
  · have other : ¬ (stemOf scheme.width key' = stemOf scheme.width key ∧
        suffixOf scheme.width key' = suffixOf scheme.width key) :=
      fun same => apart ((keyDigits_eq_iff cuts key' key).mp same).symm
    rw [← tree, insertKey, StemTree.lookup_insert (rooted_fits rooted cuts key), if_neg other]

end Reached

/- The widths of the setup. -/
section Widths
variable {backend : Backend Point G1 G2 FQ12} {secret width : Nat} {setup : SetupObject G1 G2}

theorem candidate_cuts (listed : width ∈ rootOfUnityCandidates.map Prod.fst) :
    Cuts width width.log2 ∧ 4 ≤ width ∧ width < 256 ^ 2 := by
  have checks : ∀ w ∈ rootOfUnityCandidates.map Prod.fst,
      w = 2 ^ w.log2 ∧ 0 < w.log2 ∧ 2 * w.log2 ≤ 256 ∧ 4 ≤ w ∧ w < 256 ^ 2 := by decide
  obtain ⟨power, positive, chunks, wide, few⟩ := checks width listed
  exact ⟨⟨power, positive, chunks⟩, wide, few⟩

theorem made_laid (made : verkleKzgSetup backend.curve secret width = .ok setup) :
    ∃ k w, Laid setup k w width.log2 := by
  obtain ⟨root, k, known, size, standard⟩ := made_standard made
  have listed : width ∈ rootOfUnityCandidates.map Prod.fst :=
    List.mem_map_of_mem (lookup_mem known)
  obtain ⟨cuts, wide, few⟩ := candidate_cuts listed
  refine ⟨k, root, standard.tables, ?_, (made_width made).symm ▸ cuts, size ▸ wide, size ▸ few⟩
  rw [standard.setup0, List.length_map, List.length_range]
  omega

theorem kzg_refuses (backend : Backend Point G1 G2 FQ12) (setup : SetupObject G1 G2) :
    Refuses (kzgScheme backend setup) := by
  intro stem child wide
  obtain ⟨e, raised⟩ := bytesOf_wide wide
  exact ⟨e, by simp only [kzgScheme, CommitmentScheme.commitExtension, raised, bind, Except.bind]⟩

end Widths

/-- Two keys never share a place in a tree of the width. -/
def KeptApart (curve : Curve Point2D G1 G2 FQ12) (logFloor : Nat → Nat) (sha256 : Bytes → Bytes)
    (zlib : Zlib) (width : Nat) (key key' : Word) : Prop :=
  getKeyChunks width key.bytes ≠ getKeyChunks width key'.bytes ∧
  ∀ secret setup, verkleKzgSetup curve secret width = .ok setup →
    let scheme := plainScheme curve logFloor sha256 zlib setup
    ∀ t, Reached scheme t → ∀ value : Word,
      let after := (VerkleTrees.insert scheme key.bytes value.bytes t).2
      after.disk.db.Consistent →
        VerkleTrees.get scheme after key'.bytes = VerkleTrees.get scheme t key'.bytes

/-- Keys are kept apart exactly if they differ above the bits left over. -/
theorem kept_apart_iff (curve : Curve Point2D G1 G2 FQ12) (logFloor : Nat → Nat)
    (sha256 : Bytes → Bytes) {zlib : Zlib} (lossless : zlib.Lossless) {width : Nat}
    (listed : width ∈ rootOfUnityCandidates.map Prod.fst) (key key' : Word) :
    KeptApart curve logFloor sha256 zlib width key key' ↔
      ofBytes key.bytes >>> (256 % width.log2) ≠ ofBytes key'.bytes >>> (256 % width.log2) := by
  obtain ⟨cuts, _, _⟩ := candidate_cuts listed
  have chunks : getKeyChunks width key.bytes ≠ getKeyChunks width key'.bytes ↔
      ofBytes key.bytes >>> (256 % width.log2) ≠ ofBytes key'.bytes >>> (256 % width.log2) := by
    rw [getKeyChunks_ok cuts, getKeyChunks_ok cuts, ne_eq, Except.ok.injEq,
      keyChunks_eq_iff cuts key key']
  constructor
  · intro kept
    exact chunks.mp kept.1
  · intro differ
    refine ⟨chunks.mpr differ, ?_⟩
    intro secret setup made scheme t reached value after valid
    obtain ⟨k, w, laid⟩ := made_laid
      (show verkleKzgSetup (plainBackend curve logFloor sha256 zlib).curve secret width = .ok setup
        from made)
    have lawful : Lawful scheme := laid_lawful (plainFormat_faithful sha256 lossless) laid
    have same : scheme.width = width := made_width made
    have positive : NeZero scheme.width := ⟨Nat.ne_of_gt (width_positive laid.cuts)⟩
    refine insert_apart lawful (kzg_refuses _ setup) laid.cuts reached key key' value ?_ valid
    rw [same]
    exact fun equal => differ ((keyChunks_eq_iff cuts key key').mp equal)

theorem kept_apart_sample :
    KeptApart sampleCurve sampleLogFloor sampleSha256 sampleZlib 32 sampleKey sampleValue :=
  (kept_apart_iff sampleCurve sampleLogFloor sampleSha256 sampleZlib_lossless (by decide)
    sampleKey sampleValue).mpr (by decide)

/-- At four widths the last bit of a key is in no chunk. -/
theorem last_bit_shared :
    let key : Word := ⟨toBytes 32 0, toBytes_length _ _⟩
    let key' : Word := ⟨toBytes 32 1, toBytes_length _ _⟩
    key ≠ key' ∧ getKeyChunks 32 key.bytes = getKeyChunks 32 key'.bytes ∧
      getKeyChunks 64 key.bytes = getKeyChunks 64 key'.bytes ∧
      getKeyChunks 128 key.bytes = getKeyChunks 128 key'.bytes ∧
      getKeyChunks 512 key.bytes = getKeyChunks 512 key'.bytes := by
  decide

end KeyCollisions
