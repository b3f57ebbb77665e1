import StatelessEthereum.MerkleHistory

/- A process that stops in the middle of an insert into the Merkle trie, and the
   trie that is then opened on its disk. New nodes alone change no answer; between the
   truncation of the file of the root and its writing there is no root to read. -/
namespace CrashRecovery
open PythonError BigEndian NibblePaths MerkleNodes MerkleForms StateEffect PutLog DiskLog
open MerkleTrees hiding insert get
open MerkleStorage MerkleRefinement MerkleRuns MerkleBuilt MerkleHistory

/- Disks that differ by nodes. -/

/-- The new disk has more nodes, and the file of the root was not touched. -/
def Adds (old new : Disk) : Prop :=
  ∃ nodes, (∀ e ∈ nodes, DiskEffect.asRoot e = none) ∧ new.effects = nodes ++ old.effects

theorem adds_refl (d : Disk) : Adds d d := ⟨[], by simp, rfl⟩

theorem adds_trans {d e f : Disk} (first : Adds d e) (next : Adds e f) : Adds d f := by
  obtain ⟨xs, quiet, grown⟩ := first
  obtain ⟨ys, quiet', grown'⟩ := next
  refine ⟨ys ++ xs, ?_, by rw [grown', grown, List.append_assoc]⟩
  intro x member
  rcases List.mem_append.mp member with newer | older
  · exact quiet' x newer
  · exact quiet x older

theorem adds_put (d : Disk) (r e : Bytes) : Adds d (d.apply (.put r e)) :=
  ⟨[.put r e], by simp [DiskEffect.asRoot], rfl⟩

theorem adds_rootFile {old new : Disk} (added : Adds old new) : new.rootFile = old.rootFile := by
  obtain ⟨nodes, quiet, grown⟩ := added
  have none : nodes.findSome? DiskEffect.asRoot = none := List.findSome?_eq_none_iff.mpr quiet
  rw [Disk.rootFile, grown, List.findSome?_append, none, Option.none_or, Disk.rootFile]

theorem suffix_db {d e : Disk} (part : d.effects <:+ e.effects) : d.db.Extends e.db := by
  obtain ⟨rest, whole⟩ := part
  rw [Store.Extends, Disk.db, Disk.db, ← whole, List.filterMap_append]
  exact List.suffix_append _ _

theorem adds_db {old new : Disk} (added : Adds old new) : old.db.Extends new.db := by
  obtain ⟨nodes, _, grown⟩ := added
  exact suffix_db ⟨nodes, grown.symm⟩

theorem adds_between {old d new : Disk} (added : Adds old new) (after : old.effects <:+ d.effects)
    (before : d.effects <:+ new.effects) : Adds old d := by
  obtain ⟨nodes, quiet, grown⟩ := added
  obtain ⟨some, split⟩ := after
  obtain ⟨rest, whole⟩ := before
  rw [← split, grown, ← List.append_assoc] at whole
  have parts : rest ++ some = nodes := List.append_cancel_right whole
  refine ⟨some, fun e member => quiet e ?_, split.symm⟩
  rw [← parts]
  exact List.mem_append_right _ member

def Truncated (d : Disk) : Prop := d.effects.head? = some .truncateRoot

instance (d : Disk) : Decidable (Truncated d) :=
  inferInstanceAs (Decidable (d.effects.head? = some .truncateRoot))

theorem adds_whole {old new : Disk} (whole : ¬ Truncated old) (added : Adds old new) :
    ¬ Truncated new := by
  obtain ⟨nodes, quiet, grown⟩ := added
  cases nodes with
  | nil =>
    rw [List.nil_append] at grown
    rwa [Truncated, grown]
  | cons e nodes =>
    intro last
    rw [Truncated, grown, List.cons_append, List.head?_cons, Option.some.injEq] at last
    have quiet' := quiet e List.mem_cons_self
    rw [last] at quiet'
    cases quiet'

/- The effects of one insert. -/

def TrieAdds (s t : MerklePatriciaTrie) : Prop := Adds s.disk t.disk

theorem update_adds (scheme : Scheme) (depth : Nat) (nodeRef : PyObj) (path : NibblePath)
    (value : Bytes) : Along TrieAdds (update scheme depth nodeRef path value) := by
  have refl (s : MerklePatriciaTrie) : TrieAdds s s := adds_refl s.disk
  have trans (s t u : MerklePatriciaTrie) (first : TrieAdds s t) (next : TrieAdds t u) :
      TrieAdds s u := adds_trans first next
  refine along_update refl trans (fun node => ?_) depth nodeRef path value
  exact storeNode_moves refl (fun _ r e _ _ _ s => adds_put s.disk r e) node

/-- An insert stores nodes and then raises, or it stores nodes, empties the file of the
    root and writes the new reference. -/
theorem insert_effects (scheme : Scheme) (secure : Bool) (key value : Bytes)
    (t : MerklePatriciaTrie) : let after := (MerkleTrees.insert scheme secure key value t).2
    (Adds t.disk after.disk ∧ after.rootRef = t.rootRef) ∨
      ∃ d r, Adds t.disk d ∧ after.disk = (d.apply .truncateRoot).apply (.writeRoot r) ∧
        after.rootRef = some r := by
  intro after
  cases parsed : keyPath scheme secure key with
  | error e =>
    have same : after = t := by
      simp only [after, MerkleTrees.insert, parsed, bind_run, lift_run]
    rw [same]
    exact Or.inl ⟨adds_refl _, rfl⟩
  | ok path =>
    have added := update_adds scheme (path.len + 1) (asReference t.rootRef) path value t
    have moved := update_puts scheme (path.len + 1) (asReference t.rootRef) path value t
    cases ran : update scheme (path.len + 1) (asReference t.rootRef) path value t with
    | mk result t' =>
      rw [ran] at added moved
      cases result with
      | error e =>
        have same : after = t' := by
          simp only [after, MerkleTrees.insert, parsed, bind_run, lift_run, reads_run, ran]
        rw [same]
        exact Or.inl ⟨added, moved.rootRef⟩
      | ok r =>
        refine Or.inr ⟨t'.disk, r, added, ?_, ?_⟩ <;>
          simp only [after, MerkleTrees.insert, parsed, write, bind_run, lift_run, reads_run, ran,
            modify_run]

/-- A disk that a stop during an insert can leave: some of the effects, in their order. -/
def StopsAt (before after d : Disk) : Prop :=
  before.effects <:+ d.effects ∧ d.effects <:+ after.effects

/-- Where a stop falls: among the nodes, right after the truncation, or at the end. -/
theorem stop_cases {scheme : Scheme} {secure : Bool} {key value : Bytes} {t : MerklePatriciaTrie}
    {d : Disk} (stop : StopsAt t.disk (MerkleTrees.insert scheme secure key value t).2.disk d) :
    let after := (MerkleTrees.insert scheme secure key value t).2
    Adds t.disk d ∨ (∃ e, Adds t.disk e ∧ d = e.apply .truncateRoot) ∨
      (d = after.disk ∧ after.disk.rootFile = after.rootRef ∧ ¬ Truncated after.disk) := by
  intro after
  obtain ⟨since, until'⟩ := stop
  rcases insert_effects scheme secure key value t with
    ⟨added, _⟩ | ⟨e, r, added, grown, root⟩
  · exact Or.inl (adds_between added since until')
  · rw [grown] at until'
    rcases List.suffix_cons_iff.mp until' with last | earlier
    · refine Or.inr (Or.inr ⟨?_, ?_, ?_⟩)
      · rw [grown]
        exact congrArg Disk.mk last
      · rw [grown, rootFile_writeRoot, root]
      · rw [grown]
        intro truncated
        cases truncated
    · rcases List.suffix_cons_iff.mp earlier with last | nodes
      · exact Or.inr (Or.inl ⟨e, added, congrArg Disk.mk last⟩)
      · exact Or.inl (adds_between added since nodes)

/- What the trie answers that is opened afterwards. -/

/-- Every key answers as before, or every key as after. -/
def Whole (scheme : Scheme) (secure : Bool) (before after : MerklePatriciaTrie) (d : Disk) : Prop :=
  (∀ key, MerkleTrees.get scheme secure (openTrie d) key =
    MerkleTrees.get scheme secure before key) ∨
  ∀ key, MerkleTrees.get scheme secure (openTrie d) key = MerkleTrees.get scheme secure after key

theorem opened_answers {scheme : Scheme} {secure : Bool} {t : MerklePatriciaTrie}
    (file : t.disk.rootFile = t.rootRef) (key : Bytes) :
    MerkleTrees.get scheme secure (openTrie t.disk) key = MerkleTrees.get scheme secure t key := by
  have root : (openTrie t.disk).rootRef = t.rootRef := file
  unfold MerkleTrees.get
  rw [root]
  rfl

section Answers
variable (keccak : Keccak) {secure : Bool}

theorem built_file {t : MerklePatriciaTrie} (built : Built keccak secure t) :
    t.disk.rootFile = t.rootRef := by
  induction built with
  | empty => rfl
  | @insert t _ key value ih =>
    rcases insert_effects (keccakScheme keccak.hash) secure key value t with
      ⟨added, root⟩ | ⟨e, r, _, grown, root⟩
    · rw [adds_rootFile added, root, ih]
    · rw [grown, rootFile_writeRoot, root]
  | reopen _ _ => rfl

theorem built_whole {t : MerklePatriciaTrie} (built : Built keccak secure t) :
    ¬ Truncated t.disk := by
  induction built with
  | empty =>
    intro truncated
    cases truncated
  | @insert t _ key value ih =>
    rcases insert_effects (keccakScheme keccak.hash) secure key value t with
      ⟨added, _⟩ | ⟨e, r, _, grown, _⟩
    · exact adds_whole ih added
    · rw [grown]
      intro truncated
      cases truncated
  | reopen _ ih => exact ih

/-- Distinct encodings under their own digests make a sound database. -/
theorem built_good {t : MerklePatriciaTrie} (built : Built keccak secure t)
    (distinct : Separates keccak.hash (storedEncodings t)) : Good keccakLimits t := by
  have addressed := built_addressed keccak built
  refine ⟨consistent_of_digest keccak.hash addressed distinct, fun p member => ?_⟩
  rw [addressed p member]
  exact keccak.size p.2

theorem adds_answers {t : MerklePatriciaTrie} (built : Built keccak secure t) {d : Disk}
    (added : Adds t.disk d) (good : Admissible keccakLimits d.db) (key : Bytes) :
    MerkleTrees.get (keccakScheme keccak.hash) secure (openTrie d) key =
      MerkleTrees.get (keccakScheme keccak.hash) secure t key := by
  have root : (openTrie d).rootRef = t.rootRef :=
    (adds_rootFile added).trans (built_file keccak built)
  have living := built_living built
  unfold MerkleTrees.get
  rw [root]
  cases named : t.rootRef with
  | none => rfl
  | some r =>
    have walks (depth : Nat) (path : NibblePath) :=
      getFrom_agrees keccak (u := openTrie d) living (adds_db added) good.consistent
      good.references depth
        (living.refHeld r named) path
    simp only [walks]

/-- While the file is empty every key is missing. -/
theorem truncated_answers {d : Disk} (digests : ∀ p ∈ d.db.puts, p.1.length = 32) (key : Bytes) :
    MerkleTrees.get (keccakScheme keccak.hash) secure (openTrie (d.apply .truncateRoot)) key =
      .error (.keyError ("Node not found: " ++ hex [])) := by
  obtain ⟨path, parsed, _, _⟩ := ofBytes_hex (if secure then keccak.hash key else key) 0
  have parsed' : keyPath (keccakScheme keccak.hash) secure key = .ok path := parsed
  have gone : d.db.get [] = none := by
    cases found : d.db.get [] with
    | none => rfl
    | some e => exact absurd (digests _ (get_member found)) (by simp)
  have root : (openTrie (d.apply .truncateRoot)).rootRef = some [] := rfl
  have db : (openTrie (d.apply .truncateRoot)).disk.db = d.db := rfl
  simp only [MerkleTrees.get, root, parsed', getFrom, getNode, db, gone, bind, Except.bind]

end Answers

/- Tries of values that no node takes into itself. -/

/-- What inserts of values of at least 32 bytes lead to, and reopening. -/
inductive LongBuilt (keccak : Keccak) (secure : Bool) : MerklePatriciaTrie → Prop where
  | empty : LongBuilt keccak secure emptyTrie
  | insert {t : MerklePatriciaTrie} (built : LongBuilt keccak secure t) (key value : ByteString)
      (long : 32 ≤ value.bytes.length) : LongBuilt keccak secure
        (MerkleTrees.insert (keccakScheme keccak.hash) secure key.bytes value.bytes t).2
  | reopen {t : MerklePatriciaTrie} (built : LongBuilt keccak secure t) :
      LongBuilt keccak secure (openTrie t.disk)

section Long
variable {keccak : Keccak} {secure : Bool}

theorem longBuilt_built {t : MerklePatriciaTrie} (long : LongBuilt keccak secure t) :
    Built keccak secure t := by
  induction long with
  | empty => exact .empty
  | insert _ key value _ ih => exact .insert ih key.bytes value.bytes
  | reopen _ ih => exact .reopen ih

variable (keccak secure) in
def trieKey (key : Bytes) : Bytes := if secure then keccak.hash key else key

theorem get_trieKey (t : MerklePatriciaTrie) (key : Bytes) :
    MerkleTrees.get (keccakScheme keccak.hash) secure t key =
      MerkleTrees.get (keccakScheme keccak.hash) false t (trieKey keccak secure key) := rfl

theorem trieKey_pathOk (key : ByteString) :
    keccakLimits.PathOk (nibbles (trieKey keccak secure key.bytes)) := by
  have size : (trieKey keccak secure key.bytes).length ≤ MAX_BYTES := by
    cases secure with
    | true =>
      have whole := keccak.size key.bytes
      rw [trieKey, if_pos rfl, whole]
      decide
    | false => exact key.fits
  refine ⟨nibbles_lt _, ?_⟩
  rw [nibbles_length]
  omega

theorem insert_long {T : NibbleTrie} {t : MerklePatriciaTrie}
    (shown : Represents (keccakCodec keccak) T t) (key value : ByteString)
    (long : 32 ≤ value.bytes.length) (good : Good keccakLimits (MerkleTrees.insert
      (keccakScheme keccak.hash) secure key.bytes value.bytes t).2) :
    let after := (MerkleTrees.insert (keccakScheme keccak.hash) secure key.bytes value.bytes t).2
    (∃ T', Represents (keccakCodec keccak) T' after) ∧
      MerkleTrees.get (keccakScheme keccak.hash) secure after key.bytes =
        .ok (.bytes value.bytes) := by
  have pathOk : keccakLimits.PathOk (nibbles (trieKey keccak secure key.bytes)) :=
    trieKey_pathOk key
  intro after
  obtain ⟨_, _, shown'⟩ := insert_represents shown pathOk ⟨long, value.fits⟩ good
  refine ⟨⟨_, shown'⟩, ?_⟩
  rw [get_trieKey]
  refine get_lookup shown' good ?_
  rw [CompactTrie.lookup_insert, if_pos rfl]

/-- A trie without a root, or one with a key that it has a value for. -/
theorem longBuilt_answers {t : MerklePatriciaTrie} (long : LongBuilt keccak secure t)
    (good : Good keccakLimits t) : (∃ T, Represents (keccakCodec keccak) T t) ∧
      (t.rootRef = none ∨
        ∃ key v, MerkleTrees.get (keccakScheme keccak.hash) secure t key = .ok v) := by
  induction long with
  | empty => exact ⟨⟨_, represents_empty _⟩, Or.inl rfl⟩
  | @insert t _ key value long ih =>
    have moved := insert_grows (keccakCodec keccak) secure key.bytes value.bytes t
    obtain ⟨⟨T, shown⟩, _⟩ := ih (good_grows _ _ _ _ moved good)
    obtain ⟨shown', read⟩ := insert_long shown key value long good
    exact ⟨shown', Or.inr ⟨_, _, read⟩⟩
  | @reopen t _ ih =>
    obtain ⟨⟨T, shown⟩, answers⟩ := ih good
    rw [represents_reopen shown]
    exact ⟨⟨T, shown⟩, answers⟩

/-- A stop during an insert leaves a trie that answers as before or as after, for a value
    of any length, unless it comes between the truncation and the writing of the file. If
    it comes there the trie answers neither way. -/
theorem crash_consistent_iff (keccak : Keccak) (secure : Bool) {t : MerklePatriciaTrie}
    (built : LongBuilt keccak secure t) (key value : ByteString) {d : Disk} :
    let scheme := keccakScheme keccak.hash
    let after := (MerkleTrees.insert scheme secure key.bytes value.bytes t).2
    Separates keccak.hash (storedEncodings after) → StopsAt t.disk after.disk d →
      (¬ Truncated d → Whole scheme secure t after d) ∧
        (32 ≤ value.bytes.length → Whole scheme secure t after d → ¬ Truncated d) := by
  intro scheme after distinct stop
  have whole := longBuilt_built built
  have good : Good keccakLimits after := built_good keccak (.insert whole _ _) distinct
  have sound : Admissible keccakLimits d.db := admissible_earlier (suffix_db stop.2) good
  rcases stop_cases stop with nodes | ⟨e, added, rfl⟩ | ⟨rfl, file, closed⟩
  · refine ⟨fun _ => Or.inl fun key => adds_answers keccak whole nodes sound key, fun _ _ => ?_⟩
    exact adds_whole (built_whole keccak whole) nodes
  · refine ⟨fun kept => absurd rfl kept, fun long answers => ?_⟩
    exfalso
    have lost (k : Bytes) := @truncated_answers keccak secure e sound.references k
    have before : Good keccakLimits t :=
      good_grows _ _ _ _ (insert_grows (keccakCodec keccak) secure key.bytes value.bytes t) good
    obtain ⟨⟨T, shown⟩, known⟩ := longBuilt_answers built before
    rcases answers with as | as
    · rcases known with none | ⟨k, v, read⟩
      · have empty := (lost key.bytes).symm.trans (as key.bytes)
        simp only [MerkleTrees.get, none, Except.error.injEq, PyError.keyError.injEq] at empty
        exact absurd empty (by decide)
      · have found := (lost k).symm.trans ((as k).trans read)
        cases found
    · obtain ⟨_, read⟩ := @insert_long keccak secure T t shown key value long good
      have found := (lost key.bytes).symm.trans ((as key.bytes).trans read)
      cases found
  · exact ⟨fun _ => Or.inr fun key => opened_answers file key, fun _ _ => closed⟩

end Long

/- A trie of one key, and the insert of another. -/

def keptTrie : MerklePatriciaTrie :=
  (MerkleTrees.insert (keccakScheme sampleKeccak.hash) false [0x12] (sampleBytes 97) emptyTrie).2

def grownTrie : MerklePatriciaTrie :=
  (MerkleTrees.insert (keccakScheme sampleKeccak.hash) false [0x12, 0x34] (sampleBytes 98)
    keptTrie).2

/-- The disk without the last effects of the insert. -/
def stoppedDisk (missing : Nat) : Disk := ⟨grownTrie.disk.effects.drop missing⟩

theorem keptTrie_built : LongBuilt sampleKeccak false keptTrie :=
  .insert .empty ⟨[0x12], by decide⟩ (sampleString 97) (by decide)

theorem stoppedDisk_stops :
    StopsAt keptTrie.disk grownTrie.disk (stoppedDisk 1) ∧
      StopsAt keptTrie.disk grownTrie.disk (stoppedDisk 2) := by
  unfold StopsAt
  decide

theorem crash_consistent_sample :
    Whole (keccakScheme sampleKeccak.hash) false keptTrie grownTrie (stoppedDisk 2) :=
  (crash_consistent_iff sampleKeccak false keptTrie_built ⟨[0x12, 0x34], by decide⟩
    (sampleString 98) (by decide) stoppedDisk_stops.2).1 (by decide)

/-- The file of the root is empty: the key of the trie is gone, and so is the new one. -/
theorem stop_before_write : LongBuilt sampleKeccak false keptTrie ∧
    StopsAt keptTrie.disk grownTrie.disk (stoppedDisk 1) ∧
    Separates sampleKeccak.hash (storedEncodings grownTrie) ∧
    ¬ Whole (keccakScheme sampleKeccak.hash) false keptTrie grownTrie (stoppedDisk 1) := by
  refine ⟨keptTrie_built, stoppedDisk_stops.1, by decide, ?_⟩
  rintro (as | as)
  · exact absurd (congrArg Except.toBool (as [0x12])) (by decide)
  · exact absurd (congrArg Except.toBool (as [0x12])) (by decide +kernel)

end CrashRecovery
