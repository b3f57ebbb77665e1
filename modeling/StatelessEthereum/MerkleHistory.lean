import StatelessEthereum.MerkleBuilt

/- Older roots of a trie that only grows. What a root reference leads to is on
   disk when the root is set, and nothing that is on disk is ever replaced. -/
namespace MerkleHistory
open PythonError BigEndian NibblePaths MerkleNodes MerkleForms StateEffect PutLog DiskLog
open MerkleTrees hiding insert get
open MerkleStorage MerkleRuns MerkleBuilt

/-- A run that goes on after an insert that raised. -/
def attemptEach (scheme : Scheme) (secure : Bool) (run : List (Bytes × Bytes))
    (t : MerklePatriciaTrie) : MerklePatriciaTrie :=
  run.foldl (fun t e => (MerkleTrees.insert scheme secure e.1 e.2 t).2) t

section Reading
variable (keccak : Keccak) {s u : MerklePatriciaTrie}
variable (living : Living s) (grows : s.disk.db.Extends u.disk.db)
variable (consistent : u.disk.db.Consistent) (digests : ∀ p ∈ u.disk.db.puts, p.1.length = 32)
include grows consistent digests

theorem get_agrees {r : Bytes} (held : Held s.disk.db r) :
    u.disk.db.get r = s.disk.db.get r := by
  by_cases whole : r.length = 32
  · obtain ⟨e, member⟩ := held whole
    rw [get_of_member (consistent_earlier grows consistent) member,
      get_of_member consistent (extends_member grows member)]
  · have absent (db : Store Bytes Bytes) (part : ∀ p ∈ db.puts, p ∈ u.disk.db.puts) :
        db.get r = none := by
      cases found : db.get r with
      | none => rfl
      | some e => exact absurd (digests _ (part _ (get_member found))) whole
    rw [absent _ fun _ member => member, absent _ fun _ => extends_member grows]

include living

/-- The walk of `_get` reads the same nodes later as it does now. -/
theorem getFrom_agrees (depth : Nat) {r : Bytes} (held : Held s.disk.db r) (path : NibblePath) :
    getFrom (keccakScheme keccak.hash) u.disk.db depth (.bytes r) path =
      getFrom (keccakScheme keccak.hash) s.disk.db depth (.bytes r) path := by
  induction depth generalizing r path with
  | zero => rfl
  | succ depth ih =>
    have same : getNode (keccakScheme keccak.hash) u.disk.db (.bytes r) =
        getNode (keccakScheme keccak.hash) s.disk.db (.bytes r) := by
      simp only [getNode, get_agrees grows consistent digests held]
    simp only [getFrom, same, bind, Except.bind]
    cases loaded : getNode (keccakScheme keccak.hash) s.disk.db (.bytes r) with
    | error e => rfl
    | ok node =>
      obtain ⟨kept, below⟩ := getNode_anchored keccak living loaded
      cases kept with
      | leaf hex => rfl
      | extension hex link => simp only [ih (below _ .extension)]
      | branch slots =>
        cases digit : path.atIndex 0 with
        | error e => rfl
        | ok idx =>
          rename_i branches data
          cases slot : entry branches idx with
          | error e => simp only [slot]
          | ok child =>
            obtain ⟨child, rfl, _⟩ := slots.2 _ (entry_member slot)
            have later := ih (below _ (.branch (entry_member slot)))
            simp only [slot, later]

end Reading

section Runs
variable (keccak : Keccak)

theorem attempts_built {secure : Bool} {t : MerklePatriciaTrie} (built : Built keccak secure t)
    (run : List (Bytes × Bytes)) :
    Built keccak secure (attemptEach (keccakScheme keccak.hash) secure run t) := by
  induction run generalizing t with
  | nil => exact built
  | cons e run ih => exact ih (.insert built e.1 e.2)

theorem attempts_grow (secure : Bool) (t : MerklePatriciaTrie) (run : List (Bytes × Bytes)) :
    Grows (keccakScheme keccak.hash) t (attemptEach (keccakScheme keccak.hash) secure run t) := by
  induction run generalizing t with
  | nil => exact grows_refl _ t
  | cons e run ih =>
    have one := insert_grows (keccakCodec keccak) secure e.1 e.2 t
    exact grows_trans _ _ _ _ one (ih _)

theorem built_addressed {secure : Bool} {t : MerklePatriciaTrie} (built : Built keccak secure t) :
    ∀ p ∈ t.disk.db.puts, p.1 = keccak.hash p.2 := by
  induction built with
  | empty => simp [emptyTrie, openTrie, Disk.db]
  | insert _ key value ih =>
    exact (insert_grows (keccakCodec keccak) secure key value _).addressed ih
  | reopen _ ih => exact ih

theorem raised_root {scheme : Scheme} {secure : Bool} {key value : Bytes} {t : MerklePatriciaTrie}
    {error : PyError} (raised : (MerkleTrees.insert scheme secure key value t).1 = .error error) :
    (MerkleTrees.insert scheme secure key value t).2.rootRef = t.rootRef := by
  unfold MerkleTrees.insert at raised ⊢
  cases parsed : keyPath scheme secure key with
  | error e => simp only [bind_run, lift_run]
  | ok path =>
    have moved := update_puts scheme (path.len + 1) (asReference t.rootRef) path value t
    simp only [parsed, bind_run, lift_run, reads_run] at raised ⊢
    cases ran : update scheme (path.len + 1) (asReference t.rootRef) path value t with
    | mk result t' =>
      rw [ran] at raised moved
      cases result with
      | error e => exact moved.rootRef
      | ok r => simp [write] at raised

/-- Every root reference that a run ever held reads the same after all later
    inserts, returned or raised, and an insert that raises sets no root. -/
theorem old_roots_stay (secure : Bool) (earlier later : List (Bytes × Bytes))
    (distinct : Separates keccak.hash (storedEncodings
      (attemptEach (keccakScheme keccak.hash) secure (earlier ++ later) emptyTrie))) :
    let scheme := keccakScheme keccak.hash
    let t := attemptEach scheme secure earlier emptyTrie
    let u := attemptEach scheme secure (earlier ++ later) emptyTrie
    (∀ r, t.rootRef = some r → ∀ depth path,
      getFrom scheme u.disk.db depth (.bytes r) path =
        getFrom scheme t.disk.db depth (.bytes r) path) ∧
    ∀ key value error, (MerkleTrees.insert scheme secure key value t).1 = .error error →
      (MerkleTrees.insert scheme secure key value t).2.rootRef = t.rootRef := by
  intro scheme t u
  have split : u = attemptEach scheme secure later t := List.foldl_append
  have built : Built keccak secure t := attempts_built keccak .empty earlier
  have addressed : ∀ p ∈ u.disk.db.puts, p.1 = keccak.hash p.2 :=
    built_addressed keccak (attempts_built keccak .empty (earlier ++ later))
  have grows : t.disk.db.Extends u.disk.db := by
    rw [split]
    exact (attempts_grow keccak secure t later).db
  have consistent : u.disk.db.Consistent := consistent_of_digest keccak.hash addressed distinct
  have digests : ∀ p ∈ u.disk.db.puts, p.1.length = 32 := by
    intro p member
    rw [addressed p member]
    exact keccak.size p.2
  have living := built_living built
  constructor
  · intro r root depth path
    exact getFrom_agrees keccak living grows consistent digests depth (living.refHeld r root) path
  · intro key value error raised
    exact raised_root raised

end Runs

theorem old_roots_stay_sample :
    let scheme := keccakScheme sampleKeccak.hash
    let t := attemptEach scheme false (sampleRun.plain.take 2) emptyTrie
    let u := attemptEach scheme false (sampleRun.plain.take 2 ++ sampleRun.plain.drop 2) emptyTrie
    (∀ r, t.rootRef = some r → ∀ depth path,
      getFrom scheme u.disk.db depth (.bytes r) path =
        getFrom scheme t.disk.db depth (.bytes r) path) ∧
    ∀ key value error, (MerkleTrees.insert scheme false key value t).1 = .error error →
      (MerkleTrees.insert scheme false key value t).2.rootRef = t.rootRef :=
  old_roots_stay sampleKeccak false (sampleRun.plain.take 2) (sampleRun.plain.drop 2)
    (by decide +kernel)

end MerkleHistory
