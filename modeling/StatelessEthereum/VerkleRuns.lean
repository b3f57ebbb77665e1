import StatelessEthereum.VerkleRefinement
import StatelessEthereum.VerkleKey

/- Runs of inserts on a tree that starts empty, for any lawful scheme. The tree
   on disk stays the abstract one of the run. -/
namespace VerkleRuns
open PythonError BigEndian StateEffect PutLog DiskLog VerkleSerialization
open VerkleTrees hiding insert get
open StemTree hiding insert lookup
open VerkleStorage VerkleRefinement VerkleKey
variable {Point V : Type} [Entry V] {scheme : Scheme Point}

/- What the steps of an insert can do to the disk, whether or not they return: in
   phase 1 nothing, in phase 2 puts. -/
section Moves
variable {R : VerkleTree Point → VerkleTree Point → Prop} (quiet : ∀ s t, t.disk = s.disk → R s t)
include quiet

theorem modify_moves {f : VerkleTree Point → VerkleTree Point} (same : ∀ s, (f s).disk = s.disk) :
    Along R (modify f : VerkleEffect Point Unit) := fun s => quiet s (f s) (same s)

theorem allocate_moves (content : TreeNode Point) : Along R (allocate content) :=
  fun s => quiet s _ rfl

theorem reads_moves {α : Type} (f : VerkleTree Point → Except PyError α) : Along R (reads f) :=
  along_reads (fun s => quiet s s rfl) f

theorem lift_moves {α : Type} (x : Except PyError α) :
    Along R (lift x : VerkleEffect Point α) := along_lift (fun s => quiet s s rfl) x

theorem pure_moves {α : Type} (a : α) : Along R (pure a : VerkleEffect Point α) :=
  along_pure (fun s => quiet s s rfl) a

theorem raise_moves {α : Type} (e : PyError) : Along R (raise e : VerkleEffect Point α) :=
  along_raise (fun s => quiet s s rfl) e

theorem writeNode_moves (node : Nat) (content : TreeNode Point) :
    Along R (writeNode node content) := modify_moves quiet fun _ => rfl

variable (trans : ∀ s t u, R s t → R t u → R s u)
include trans

theorem load_moves (reference : Option Bytes) : Along R (load scheme reference) :=
  along_bind trans (reads_moves quiet _) (allocate_moves quiet)

theorem addGroup_moves (parent slot : Nat) (stem : List Nat) (suffix : Nat) (value : Bytes)
    (stack : List Frame) : Along R (addGroup scheme parent slot stem suffix value stack) := by
  unfold addGroup
  refine along_bind trans (lift_moves quiet _) fun _ => ?_
  refine along_bind trans (allocate_moves quiet _) fun _ => ?_
  exact along_bind trans (allocate_moves quiet _) fun _ => pure_moves quiet _

theorem addShared_moves (chunks : List Nat) (parent : Option (Nat × Slot)) (stack : List Frame) :
    Along R (addShared scheme parent chunks stack) := by
  induction chunks generalizing parent stack with
  | nil => exact pure_moves quiet _
  | cons chunk rest ih => exact along_bind trans (allocate_moves quiet _) fun _ => ih _ _

theorem diverge_moves (node : Nat) (newStem : List Nat) (suffix : Nat) (value : Bytes)
    (stack : List Frame) : Along R (diverge scheme node newStem suffix value stack) := by
  unfold diverge
  refine along_bind trans (reads_moves quiet _) fun current => ?_
  cases stack with
  | nil => exact raise_moves quiet _
  | cons top below =>
    refine along_bind trans (addShared_moves quiet trans _ _ _) fun _ => ?_
    refine along_bind trans (allocate_moves quiet _) fun _ => ?_
    refine along_bind trans (lift_moves quiet _) fun _ => ?_
    refine along_bind trans (writeNode_moves quiet _ _) fun _ => ?_
    exact along_bind trans (lift_moves quiet _) fun _ => addGroup_moves quiet trans _ _ _ _ _ _

theorem putValue_moves (suffixTree suffix : Nat) (value : Bytes) :
    Along R (putValue suffixTree suffix value : VerkleEffect Point Unit) := by
  refine along_bind trans (reads_moves quiet _) fun _ => ?_
  exact along_bind trans (lift_moves quiet _) fun _ => writeNode_moves quiet _ _

theorem atExtension_moves (node : Nat) (newStem : List Nat) (suffix : Nat) (value : Bytes)
    (stack : List Frame) : Along R (atExtension scheme node newStem suffix value stack) := by
  unfold atExtension
  refine along_bind trans (reads_moves quiet _) fun current => ?_
  split
  · refine along_bind trans (load_moves quiet trans _) fun _ => ?_
    exact along_bind trans (putValue_moves quiet trans _ _ _) fun _ => pure_moves quiet _
  · exact diverge_moves quiet trans _ _ _ _ _

theorem descend_moves (suffix : Nat) (value : Bytes) (rest : List Nat) (node : Nat)
    (stack : List Frame) : Along R (descend scheme suffix value rest node stack) := by
  induction rest generalizing node stack with
  | nil =>
    rw [descend]
    refine along_bind trans (reads_moves quiet _) fun current => ?_
    cases current.type with
    | internal => exact raise_moves quiet _
    | extension => exact atExtension_moves quiet trans _ _ _ _ _
    | suffix =>
      exact along_bind trans (putValue_moves quiet trans _ _ _) fun _ => pure_moves quiet _
  | cons chunk rest ih =>
    rw [descend]
    refine along_bind trans (reads_moves quiet _) fun current => ?_
    cases current.type with
    | internal =>
      refine along_bind trans (lift_moves quiet _) fun child => ?_
      cases child with
      | none => exact addGroup_moves quiet trans _ _ _ _ _ _
      | some ref => exact along_bind trans (load_moves quiet trans _) fun _ => ih _ _
    | extension => exact atExtension_moves quiet trans _ _ _ _ _
    | suffix =>
      exact along_bind trans (putValue_moves quiet trans _ _ _) fun _ => pure_moves quiet _

theorem link_moves (frame : Frame) (value : Bytes) :
    Along R (link frame value : VerkleEffect Point Unit) := by
  unfold link
  split
  · exact modify_moves quiet fun _ => rfl
  · exact along_bind trans (reads_moves quiet _) fun _ => writeNode_moves quiet _ _
  · refine along_bind trans (reads_moves quiet _) fun _ => ?_
    exact along_bind trans (lift_moves quiet _) fun _ => writeNode_moves quiet _ _

theorem ensureRoot_moves : Along R (ensureRoot scheme) := by
  unfold ensureRoot
  refine along_bind trans (reads_moves quiet _) fun root => ?_
  cases root with
  | some root => exact pure_moves quiet _
  | none =>
    refine along_bind trans (allocate_moves quiet _) fun _ => ?_
    exact along_bind trans (modify_moves quiet fun _ => rfl) fun _ => pure_moves quiet _

variable (puts : ∀ s r e, R s { s with disk := s.disk.apply (.put r e) })
include puts

theorem settle_moves (frame : Frame) : Along R (settle scheme frame) := by
  unfold settle
  refine along_bind trans (reads_moves quiet _) fun _ => ?_
  refine along_bind trans (lift_moves quiet _) fun _ => ?_
  refine along_bind trans (writeNode_moves quiet _ _) fun _ => ?_
  refine along_bind trans (lift_moves quiet _) fun _ => ?_
  refine along_bind trans (writeNode_moves quiet _ _) fun _ => ?_
  refine along_bind trans (lift_moves quiet _) fun _ => ?_
  exact along_bind trans (fun s => puts s _ _) fun _ => link_moves quiet trans _ _

end Moves

def DbGrows (s t : VerkleTree Point) : Prop := s.disk.db.Extends t.disk.db

theorem grows_refl (s : VerkleTree Point) : DbGrows s s := extends_refl _

theorem grows_trans (s t u : VerkleTree Point) (first : DbGrows s t) (next : DbGrows t u) :
    DbGrows s u := extends_trans first next

theorem grows_quiet (s t : VerkleTree Point) (same : t.disk = s.disk) : DbGrows s t := by
  rw [DbGrows, same]
  exact extends_refl _

theorem grows_puts (s : VerkleTree Point) (r e : Bytes) :
    DbGrows s { s with disk := s.disk.apply (.put r e) } := extends_put _ _ _

theorem insert_grows (key value : Bytes) :
    Along DbGrows (VerkleTrees.insert scheme key value) := by
  unfold VerkleTrees.insert
  refine along_bind grows_trans (lift_moves grows_quiet _) fun _ => ?_
  refine along_bind grows_trans (ensureRoot_moves grows_quiet grows_trans) fun _ => ?_
  refine along_bind grows_trans (descend_moves grows_quiet grows_trans _ _ _ _ _) fun _ => ?_
  refine along_bind grows_trans (along_forEach grows_refl grows_trans
    (settle_moves grows_quiet grows_trans grows_puts) _) fun _ => ?_
  refine along_bind grows_trans (fun s => extends_refl s.disk.db) fun _ => ?_
  refine along_bind grows_trans (reads_moves grows_quiet _) fun _ => ?_
  exact along_bind grows_trans (fun s => extends_refl s.disk.db) fun _ =>
    modify_moves grows_quiet fun _ => rfl

/- The abstract tree of a state. -/

/-- The object and the disk after an insert: the tree is all there, and both
    name its root. -/
structure Represents (scheme : Scheme Point) (t : VerkleTree Point)
    (kids : Fin scheme.width → Trie scheme.width V) : Prop where
  standing : ∃ id p, Standing scheme t id p kids ∧
    t.rootRef = some (pointRef scheme p).bytes ∧ t.disk.rootFile = some (pointRef scheme p).bytes

/-- The constructor on a directory without files. -/
def emptyTree : VerkleTree Point := ⟨⟨[]⟩, .empty, none, none⟩

/-- Before a first insert has returned: no root, or a bare one that is not on
    disk. -/
structure Idle (scheme : Scheme Point) (t : VerkleTree Point) : Prop where
  unnamed : t.disk.rootFile = none
  held : ∀ id, t.root = some id → id < t.objects.size
  typed : ∀ id, t.root = some id → (t.objects.read id).type = .internal
  children : ∀ id, t.root = some id →
    (t.objects.read id).children = List.replicate scheme.width none

theorem idle_empty (scheme : Scheme Point) : Idle scheme (emptyTree : VerkleTree Point) := by
  constructor
  · rfl
  · intro id root
    cases root
  · intro id root
    cases root
  · intro id root
    cases root

/-- The tree before its first insert, or after one. -/
def Holding (scheme : Scheme Point) (t : VerkleTree Point)
    (kids : Fin scheme.width → Trie scheme.width V) : Prop :=
  (Idle scheme t ∧ kids = bare) ∨ Represents scheme t kids

theorem ensureRoot_shows {t : VerkleTree Point} {kids : Fin scheme.width → Trie scheme.width V}
    (held : Holding scheme t kids) :
    ∃ root t', ensureRoot scheme t = (.ok root, t') ∧ t'.disk = t.disk ∧
      Shows scheme t' root kids := by
  rcases held with ⟨idle, rfl⟩ | ⟨id, p, standing, _, _⟩
  · cases root : t.root with
    | none =>
      have shows := bare_shows V scheme t
      refine ⟨t.objects.size, { t.grow (newNode scheme.width .internal) with
        root := some t.objects.size }, ?_, rfl, shows.held, shows.typed, shows.children,
          shows.written⟩
      simp only [ensureRoot, bind_run, reads_run, root, allocate_run, modify_run, pure_run]
    | some id =>
      refine ⟨id, t, ?_, rfl, idle.held id root, idle.typed id root, ?_, fun _ => trivial⟩
      · simp only [ensureRoot, bind_run, reads_run, root, pure_run]
      · rw [refs_bare, childList_bare, idle.children id root]
  · refine ⟨id, t, ?_, rfl, standing.shows⟩
    simp only [ensureRoot, bind_run, reads_run, standing.root, pure_run]

section Keys
variable {bits : Nat} [NeZero scheme.width]

def insertKey (t : Trie scheme.width V) (key : Word) (value : V) : Trie scheme.width V :=
  StemTree.insert t (stemOf scheme.width key) (suffixOf scheme.width key) value

theorem insert_shown (lawful : Lawful scheme) (cuts : Cuts scheme.width bits)
    {t t₁ : VerkleTree Point} {root : Nat} (made : ensureRoot scheme t = (.ok root, t₁))
    (disk : t₁.disk = t.disk) {kids : Fin scheme.width → Trie scheme.width V}
    (shows : Shows scheme t₁ root kids) (rooted : Rooted kids (depth scheme.width)) (key : Word)
    (value : V) (sound : Sound (insertKey (.inner kids) key value))
    (valid : t.disk.db.Consistent) :
    ∃ kids', insertKey (.inner kids) key value = .inner kids' ∧
      Rooted kids' (depth scheme.width) ∧
      (VerkleTrees.insert scheme key.bytes (Entry.bytes value) t).1 = .ok () ∧
      Represents scheme (VerkleTrees.insert scheme key.bytes (Entry.bytes value) t).2 kids' := by
  obtain ⟨i, k, stem, size⟩ := stemOf_cons cuts key
  have below : Sound (StemTree.insert (kids i) k (suffixOf scheme.width key) value) := by
    rw [insertKey, stem, StemTree.insert] at sound
    simpa using sound i
  obtain ⟨stack, t₂, down, t₃, root', p, kids', equal, up, standing⟩ :=
    descend_builds lawful (suffixOf scheme.width key) value k i (t := t₁)
      (by rw [disk]; exact valid) (.root root) shows (size ▸ rooted.fits i) below
  have reference : rootValue
      ({ t₃ with disk := t₃.disk.apply .truncateRoot } : VerkleTree Point) =
        .ok (pointRef scheme p).bytes := by
    simp only [rootValue, standing.root, standing.value]
  have run : VerkleTrees.insert scheme key.bytes (Entry.bytes value) t = (.ok (), { t₃ with
      disk := (t₃.disk.apply .truncateRoot).apply (.writeRoot (pointRef scheme p).bytes)
      rootRef := some (pointRef scheme p).bytes }) := by
    unfold VerkleTrees.insert
    rw [bind_ok (by rw [lift_run, splitKey_ok cuts key])]
    simp only [stem]
    rw [bind_ok made, bind_ok down, bind_ok up]
    simp only [bind_run, write_run, reads_run, reference, modify_run]
  refine ⟨kids', ?_, ?_, by rw [run], ?_⟩
  · rw [insertKey, stem]
    exact equal
  · have shape := StemTree.rooted_insert (i := i) (size ▸ rooted)
      (suffixOf scheme.width key) value
    rw [StemTree.insert] at equal
    cases equal
    rwa [size] at shape
  · rw [run]
    exact ⟨root', p, ⟨standing.root, ⟨standing.shows.held, standing.shows.typed,
      standing.shows.children, standing.shows.written⟩, standing.point, standing.value,
      standing.commitment, standing.stored⟩, rfl, rfl⟩

theorem insert_represents (lawful : Lawful scheme) (cuts : Cuts scheme.width bits)
    {t : VerkleTree Point} {kids : Fin scheme.width → Trie scheme.width V}
    (held : Holding scheme t kids) (rooted : Rooted kids (depth scheme.width)) (key : Word)
    (value : V) (sound : Sound (insertKey (.inner kids) key value))
    (valid : t.disk.db.Consistent) :
    ∃ kids', insertKey (.inner kids) key value = .inner kids' ∧
      Rooted kids' (depth scheme.width) ∧
      (VerkleTrees.insert scheme key.bytes (Entry.bytes value) t).1 = .ok () ∧
      Represents scheme (VerkleTrees.insert scheme key.bytes (Entry.bytes value) t).2 kids' := by
  obtain ⟨root, t₁, made, disk, shows⟩ := ensureRoot_shows held
  exact insert_shown lawful cuts made disk shows rooted key value sound valid

def treeOf (width : Nat) [NeZero width] (run : List (Word × V)) : Trie width V :=
  run.foldl (fun t e => StemTree.insert t (stemOf width e.1) (suffixOf width e.1) e.2) (.inner bare)

omit [Entry V] in
theorem treeOf_append {width : Nat} [NeZero width] (run : List (Word × V)) (e : Word × V) :
    treeOf width (run ++ [e]) =
      StemTree.insert (treeOf width run) (stemOf width e.1) (suffixOf width e.1) e.2 := by
  simp [treeOf]

def insertEach (scheme : Scheme Point) (run : List (Word × V)) : VerkleEffect Point Unit :=
  forEach (fun e => VerkleTrees.insert scheme e.1.bytes (Entry.bytes e.2)) run

/-- The calls of `insert` on a tree that starts empty. -/
def insertRun (scheme : Scheme Point) (run : List (Word × V)) :
    Except PyError Unit × VerkleTree Point := insertEach scheme run emptyTree

omit [NeZero scheme.width] in
theorem insertRun_append {run : List (Word × V)} (fine : (insertRun scheme run).1 = .ok ())
    (e : Word × V) : insertRun scheme (run ++ [e]) =
      VerkleTrees.insert scheme e.1.bytes (Entry.bytes e.2) (insertRun scheme run).2 := by
  have first : insertEach scheme run emptyTree = (.ok (), (insertRun scheme run).2) :=
    Prod.ext fine rfl
  rw [insertRun, insertEach, forEach_append, ← insertEach, bind_ok first, forEach, bind_run]
  cases VerkleTrees.insert scheme e.1.bytes (Entry.bytes e.2) (insertRun scheme run).2 with
  | mk result t => cases result <;> rfl

theorem first_represents (lawful : Lawful scheme) (cuts : Cuts scheme.width bits) (key : Word)
    (value : V) (sound : Sound (insertKey (.inner (bare : Fin scheme.width → Trie _ V)) key value)) :
    ∃ kids, insertKey (.inner bare) key value = .inner kids ∧
      Represents scheme (insertRun scheme [(key, value)]).2 kids := by
  have nothing : (emptyTree : VerkleTree Point).disk.db.Consistent := by
    intro r a b first
    exact absurd first List.not_mem_nil
  obtain ⟨kids, tree, _, ran, shown⟩ := insert_represents lawful cuts
    (Or.inl ⟨idle_empty scheme, rfl⟩) (rooted_bare _) key value sound nothing
  refine ⟨kids, tree, ?_⟩
  rw [insertRun, insertEach, forEach, bind_ok (Prod.ext ran rfl)]
  exact shown

theorem insertRun_earlier (scheme : Scheme Point) (run more : List (Word × V)) :
    (insertRun scheme run).2.disk.db.Extends (insertRun scheme (run ++ more)).2.disk.db := by
  have moves (e : Word × V) :
      Along DbGrows (VerkleTrees.insert scheme e.1.bytes (Entry.bytes e.2)) := insert_grows _ _
  have whole : insertRun scheme (run ++ more) =
      (insertEach scheme run >>= fun _ => insertEach scheme more) emptyTree :=
    forEach_append _ run more emptyTree
  rw [whole, bind_run, insertRun]
  cases ran : insertEach scheme run emptyTree with
  | mk result t =>
    cases result with
    | error e => exact extends_refl _
    | ok u => exact along_forEach grows_refl grows_trans moves more t

structure Follows (scheme : Scheme Point) [NeZero scheme.width] (run : List (Word × V))
    (t : VerkleTree Point) (kids : Fin scheme.width → Trie scheme.width V) : Prop where
  tree : treeOf scheme.width run = .inner kids
  rooted : Rooted kids (depth scheme.width)
  holding : if run = [] then t = emptyTree else Represents scheme t kids

theorem follows_holding {run : List (Word × V)} {t : VerkleTree Point}
    {kids : Fin scheme.width → Trie scheme.width V} (follows : Follows scheme run t kids) :
    Holding scheme t kids := by
  have holding := follows.holding
  split at holding
  · rename_i none
    have tree := follows.tree
    rw [none] at tree
    rw [holding]
    exact Or.inl ⟨idle_empty scheme, (Tree.inner.inj tree).symm⟩
  · exact Or.inr holding

/-- A run of inserts whose trees the node format has room for at every step. -/
theorem run_follows (lawful : Lawful scheme) (cuts : Cuts scheme.width bits)
    {run : List (Word × V)} (sound : ∀ done, done <+: run → Sound (treeOf scheme.width done))
    (valid : (insertRun scheme run).2.disk.db.Consistent) :
    (insertRun scheme run).1 = .ok () ∧
      ∃ kids, Follows scheme run (insertRun scheme run).2 kids := by
  induction run using List.reverseRecOn with
  | nil => exact ⟨rfl, bare, rfl, rooted_bare _, rfl⟩
  | append_singleton run e ih =>
    obtain ⟨fine, kids, follows⟩ := ih
      (fun done part => sound done (part.trans (List.prefix_append run [e])))
      (consistent_earlier (insertRun_earlier scheme run [e]) valid)
    have step := insertRun_append fine e
    have whole := sound (run ++ [e]) (List.prefix_refl _)
    rw [treeOf_append, follows.tree] at whole
    have valid' := consistent_earlier (insertRun_earlier scheme run [e]) valid
    obtain ⟨kids', tree, rooted, ran, shown⟩ := insert_represents lawful cuts
      (follows_holding follows) follows.rooted e.1 e.2 whole valid'
    rw [step]
    refine ⟨ran, kids', ?_, rooted, by simpa using shown⟩
    rw [treeOf_append, follows.tree, ← tree]
    rfl

end Keys

/- Reading. -/

/-- An object, loaded or live, of the node at the top of a tree on disk. -/
inductive ObjectOf (scheme : Scheme Point) (db : Store Bytes Bytes) (node : TreeNode Point) :
    Trie scheme.width V → Prop
  | inner {kids : Fin scheme.width → Trie scheme.width V} (typed : node.type = .internal)
      (children : node.children = childList (refs scheme kids))
      (commitment : node.commitmentToChildren = nodePoint scheme (.inner kids))
      (written : ∀ i, Written db (kids i)) : ObjectOf scheme db node (.inner kids)
  | group {stem : List (Fin scheme.width)} {slots : Fin scheme.width → Option V} {child : Word}
      (typed : node.type = .extension) (covers : node.stem = stem.map Fin.val)
      (holds : node.child = some child.bytes)
      (commitment : node.commitmentToChildren = nodePoint scheme (.group stem slots))
      (stored : ArrayWritten db PREFIX_SUFFIX slots) (named : suffixRef scheme slots = some child) :
      ObjectOf scheme db node (.group stem slots)

theorem written_loads (lawful : Lawful scheme) {db : Store Bytes Bytes} (valid : db.Consistent)
    {t : Trie scheme.width V} (occupied : t ≠ .empty) (written : Written db t) :
    ∃ ref node, refOf scheme t = some ref ∧
      makeTreeNode scheme db (some ref.bytes) = .ok node ∧ ObjectOf scheme db node t := by
  cases t with
  | empty => exact absurd rfl occupied
  | inner kids =>
    obtain ⟨⟨p, point, holds⟩, below⟩ := written
    refine ⟨pointRef scheme p, arrayNode scheme .internal (refs scheme kids) p, ?_,
      load_array lawful valid point ⟨p, point, holds⟩, .inner rfl rfl point.symm below⟩
    rw [refOf, nodePoint_inner, point]
    rfl
  | group stem slots =>
    obtain ⟨storable, stored, child, named, p, point, holds⟩ := written
    have top : nodePoint scheme (.group stem slots) = some p := by rw [nodePoint, named, point]
    refine ⟨pointRef scheme p, extensionNode scheme stem child p, by rw [refOf, top]; rfl,
      load_extension lawful valid storable.narrow point ⟨p, point, holds⟩,
      .group rfl rfl rfl top.symm stored named⟩

theorem suffix_loads (lawful : Lawful scheme) {db : Store Bytes Bytes} (valid : db.Consistent)
    {slots : Fin scheme.width → Option V} {child : Word}
    (stored : ArrayWritten db PREFIX_SUFFIX slots) (named : suffixRef scheme slots = some child) :
    ∃ p, arrayPoint scheme slots = some p ∧ child = pointRef scheme p ∧
      makeTreeNode scheme db (some child.bytes) = .ok (arrayNode scheme .suffix slots p) := by
  obtain ⟨p, point, holds⟩ := stored
  have ref : child = pointRef scheme p := by
    rw [suffixRef, point] at named
    simpa using named.symm
  exact ⟨p, point, ref, ref ▸ load_array lawful valid point ⟨p, point, holds⟩⟩

theorem getFrom_lookup (lawful : Lawful scheme) {db : Store Bytes Bytes} (valid : db.Consistent)
    {t : Trie scheme.width V} (k : List (Fin scheme.width)) (x : Fin scheme.width)
    {node : TreeNode Point} (object : ObjectOf scheme db node t) (fits : Fits t k.length)
    {limit : Nat} (enough : k.length + 2 ≤ limit) :
    getFrom scheme db x.val limit node (k.map Fin.val) =
      .ok ((StemTree.lookup t k x).map fun v => ofBytes (Entry.bytes v)) := by
  induction t generalizing k node limit with
  | empty => cases object
  | group stem slots =>
    cases object with
    | group typed covers holds _ stored named =>
      obtain ⟨limit, rfl⟩ := Nat.exists_eq_add_of_le enough
      obtain ⟨p, _, _, loads⟩ := suffix_loads lawful valid stored named
      have chunks : k.map Fin.val = stem.map Fin.val ↔ k = stem :=
        (List.map_injective_iff.mpr Fin.val_injective).eq_iff
      rw [show k.length + 2 + limit = (k.length + limit) + 1 + 1 by omega]
      by_cases same : k = stem
      · subst same
        simp only [getFrom, typed, covers, holds, loads, bind, Except.bind, ↓reduceIte, arrayNode,
          childList_get, StemTree.lookup, Option.map_map]
        rfl
      · simp only [getFrom, typed, covers, chunks, same, ↓reduceIte, StemTree.lookup,
          Option.map_none]
  | inner kids ih =>
    cases object with
    | inner typed children _ written =>
      obtain ⟨m, size, below⟩ := fits
      cases k with
      | nil => simp at size
      | cons i k =>
        simp only [List.length_cons, Nat.add_right_cancel_iff] at size enough
        obtain ⟨limit, rfl⟩ := Nat.exists_eq_add_of_le enough
        rw [show k.length + 1 + 2 + limit = (k.length + 2 + limit) + 1 by omega]
        by_cases gone : kids i = .empty
        · simp only [getFrom, typed, children, List.map_cons, childList_get, refs, gone,
            refOf_empty, bind, Except.bind, StemTree.lookup, Option.map_none]
        · obtain ⟨ref, next, named, loads, object'⟩ := written_loads lawful valid gone (written i)
          have rest := ih i k object' (size ▸ below i) (Nat.le_add_right (k.length + 2) limit)
          simp only [getFrom, typed, children, List.map_cons, childList_get, refs, named, bind,
            Except.bind, Option.map_some, entry_word, loads, rest, StemTree.lookup]

/-- The commitments a walk down the tree passes, the one at the top first. -/
def proofPoints (scheme : Scheme Point) :
    Trie scheme.width V → List (Fin scheme.width) → List (Option Point)
  | .empty, _ => []
  | .group stem slots, k => nodePoint scheme (.group stem slots) ::
      if k = stem then [arrayPoint scheme slots] else []
  | .inner kids, [] => [nodePoint scheme (.inner kids)]
  | .inner kids, i :: k => nodePoint scheme (.inner kids) :: proofPoints scheme (kids i) k

theorem proofFrom_points (lawful : Lawful scheme) {db : Store Bytes Bytes} (valid : db.Consistent)
    {t : Trie scheme.width V} (k : List (Fin scheme.width)) {node : TreeNode Point}
    (object : ObjectOf scheme db node t) (fits : Fits t k.length) {limit : Nat}
    (enough : k.length + 2 ≤ limit) :
    proofFrom scheme db limit node (k.map Fin.val) = .ok (proofPoints scheme t k) := by
  induction t generalizing k node limit with
  | empty => cases object
  | group stem slots =>
    cases object with
    | group typed covers holds commitment stored named =>
      obtain ⟨limit, rfl⟩ := Nat.exists_eq_add_of_le enough
      obtain ⟨p, point, _, loads⟩ := suffix_loads lawful valid stored named
      have chunks : k.map Fin.val = stem.map Fin.val ↔ k = stem :=
        (List.map_injective_iff.mpr Fin.val_injective).eq_iff
      rw [show k.length + 2 + limit = (k.length + limit) + 1 + 1 by omega]
      by_cases same : k = stem
      · subst same
        simp only [proofFrom, typed, covers, holds, loads, bind, Except.bind, ↓reduceIte, arrayNode,
          commitment, proofPoints, point]
      · simp only [proofFrom, typed, covers, chunks, same, ↓reduceIte, proofPoints, commitment]
  | inner kids ih =>
    cases object with
    | inner typed children commitment written =>
      obtain ⟨m, size, below⟩ := fits
      cases k with
      | nil => simp at size
      | cons i k =>
        simp only [List.length_cons, Nat.add_right_cancel_iff] at size enough
        obtain ⟨limit, rfl⟩ := Nat.exists_eq_add_of_le enough
        rw [show k.length + 1 + 2 + limit = (k.length + 2 + limit) + 1 by omega]
        by_cases gone : kids i = .empty
        · simp only [proofFrom, typed, children, commitment, List.map_cons, childList_get, refs,
            gone, refOf_empty, bind, Except.bind, Option.map_none, proofPoints]
        · obtain ⟨ref, next, named, loads, object'⟩ := written_loads lawful valid gone (written i)
          have rest := ih i k object' (size ▸ below i) (Nat.le_add_right (k.length + 2) limit)
          simp only [proofFrom, typed, children, commitment, List.map_cons, childList_get, refs,
            named, bind, Except.bind, Option.map_some, entry_word, loads, rest, proofPoints]

theorem standing_object {t : VerkleTree Point} {id : Nat} {p : Point}
    {kids : Fin scheme.width → Trie scheme.width V} (standing : Standing scheme t id p kids) :
    ObjectOf scheme t.disk.db (t.objects.read id) (.inner kids) :=
  .inner standing.shows.typed standing.shows.children
    (standing.commitment.trans (by rw [nodePoint_inner, standing.point])) standing.shows.written

theorem walkLimit_enough (db : Store Bytes Bytes) {stem : List (Fin scheme.width)} :
    stem.length + 2 ≤ walkLimit db (stem.map Fin.val) := by
  rw [walkLimit, List.length_map]
  exact Nat.le_mul_of_pos_left _ (by omega)

theorem openTree_holding (lawful : Lawful scheme) {t : VerkleTree Point}
    {kids : Fin scheme.width → Trie scheme.width V} (held : Holding scheme t kids)
    (valid : t.disk.db.Consistent) :
    ∃ reopened, openTree scheme t.disk = .ok reopened ∧ reopened.disk = t.disk ∧
      Holding scheme reopened kids := by
  rcases held with ⟨idle, rfl⟩ | ⟨id, p, standing, rootRef, rootFile⟩
  · refine ⟨⟨t.disk, .empty, none, t.disk.rootFile⟩, ?_, rfl,
      Or.inl ⟨⟨idle.unnamed, ?_, ?_, ?_⟩, rfl⟩⟩
    · simp only [openTree, idle.unnamed]
    all_goals
      intro id root
      cases root
  · have loads := load_array lawful valid standing.point standing.stored
    have long := (pointRef scheme p).size
    cases bytes : (pointRef scheme p).bytes with
    | nil => simp [bytes] at long
    | cons b rest =>
      refine ⟨⟨t.disk, ⟨[arrayNode scheme .internal (refs scheme kids) p]⟩, some 0,
        some (pointRef scheme p).bytes⟩, ?_, rfl, Or.inr ⟨0, p, ?_, rfl, rootFile⟩⟩
      · rw [bytes] at rootFile loads
        simp only [openTree, rootFile, loads, bytes, bind, Except.bind]
        rfl
      · exact ⟨rfl, ⟨Nat.zero_lt_one, rfl, rfl, standing.shows.written⟩, standing.point, rfl, rfl,
          standing.stored⟩

def lastInserted (run : List (Word × V)) (key : Word) : Option V :=
  (run.reverse.find? fun e => e.1 == key).map Prod.snd

omit [Entry V] in
theorem lastInserted_append (run : List (Word × V)) (e : Word × V) (key : Word) :
    lastInserted (run ++ [e]) key = if key = e.1 then some e.2 else lastInserted run key := by
  by_cases same : key = e.1
  · simp [lastInserted, same]
  · have off : (e.1 == key) = false := by simpa using Ne.symm same
    simp [lastInserted, same, off]

section Keys
variable {bits : Nat} [NeZero scheme.width]

omit [Entry V] in
theorem rooted_fits {kids : Fin scheme.width → Trie scheme.width V}
    (rooted : Rooted kids (depth scheme.width)) (cuts : Cuts scheme.width bits) (key : Word) :
    Fits (.inner kids) (stemOf scheme.width key).length := by
  rw [stemOf_length cuts]
  exact ⟨_, rfl, rooted.fits⟩

/-- `get` answers what the abstract tree does. -/
theorem get_lookup (lawful : Lawful scheme) (cuts : Cuts scheme.width bits)
    {t : VerkleTree Point} {kids : Fin scheme.width → Trie scheme.width V}
    (held : Holding scheme t kids) (rooted : Rooted kids (depth scheme.width))
    (valid : t.disk.db.Consistent) (key : Word) :
    VerkleTrees.get scheme t key.bytes =
      .ok ((StemTree.lookup (.inner kids) (stemOf scheme.width key)
        (suffixOf scheme.width key)).map fun v => ofBytes (Entry.bytes v)) := by
  rw [VerkleTrees.get, splitKey_ok cuts key]
  rcases held with ⟨idle, rfl⟩ | ⟨id, p, standing, _, _⟩
  · obtain ⟨i, k, stem, _⟩ := stemOf_cons cuts key
    rw [stem]
    cases root : t.root with
    | none => simp [rootNode, root, StemTree.lookup, bare, bind, Except.bind]
    | some id =>
      have limit : walkLimit t.disk.db ((i :: k).map Fin.val) =
          (walkLimit t.disk.db ((i :: k).map Fin.val) - 1) + 1 := by
        have enough : (i :: k).length + 2 ≤ walkLimit t.disk.db ((i :: k).map Fin.val) :=
          walkLimit_enough t.disk.db
        omega
      simp only [bind, Except.bind, rootNode, root, Option.map_some]
      rw [limit]
      simp [getFrom, idle.typed id root, idle.children id root, entry, StemTree.lookup, bare, bind,
        Except.bind]
  · have read := getFrom_lookup lawful valid (stemOf scheme.width key) (suffixOf scheme.width key)
      (standing_object standing) (rooted_fits rooted cuts key) (walkLimit_enough t.disk.db)
    simp only [bind, Except.bind, rootNode, standing.root, Option.map_some, read]

end Keys

/- The abstract tree of a run as a map. -/
section Map
variable {width bits : Nat} [NeZero width] (cuts : Cuts width bits)
omit [Entry V]
include cuts

theorem treeOf_rooted (run : List (Word × V)) :
    ∃ kids, treeOf width run = .inner kids ∧ Rooted kids (depth width) := by
  induction run using List.reverseRecOn with
  | nil => exact ⟨bare, rfl, rooted_bare _⟩
  | append_singleton run e ih =>
    obtain ⟨kids, tree, rooted⟩ := ih
    obtain ⟨i, k, stem, size⟩ := stemOf_cons cuts e.1
    have next := StemTree.rooted_insert (i := i) (k := k) (size ▸ rooted) (suffixOf width e.1) e.2
    exact ⟨_, by rw [treeOf_append, tree, stem, StemTree.insert], size ▸ next⟩

theorem treeOf_fits (run : List (Word × V)) (key : Word) :
    Fits (treeOf width run) (stemOf width key).length := by
  obtain ⟨kids, tree, rooted⟩ := treeOf_rooted cuts run
  rw [tree, stemOf_length cuts]
  exact ⟨_, rfl, rooted.fits⟩

theorem treeOf_words (narrow : width ≤ 256) (run : List (Word × Word)) :
    Sound (treeOf width run) := by
  obtain ⟨kids, tree, rooted⟩ := treeOf_rooted cuts run
  have few := Nat.div_le_self 256 width.log2
  have fits : Fits (treeOf width run) (depth width + 1) := by
    rw [tree]
    exact ⟨_, rfl, rooted.fits⟩
  exact sound_words narrow fits (by rw [depth]; omega)

omit cuts in
theorem treeOf_lookup (aligned : Aligned width bits) (run : List (Word × V)) (key : Word) :
    StemTree.lookup (treeOf width run) (stemOf width key) (suffixOf width key) =
      lastInserted run key := by
  induction run using List.reverseRecOn with
  | nil =>
    obtain ⟨i, k, stem, _⟩ := stemOf_cons aligned.toCuts key
    rw [stem]
    rfl
  | append_singleton run e ih =>
    rw [treeOf_append, StemTree.lookup_insert (treeOf_fits aligned.toCuts run e.1), ih,
      lastInserted_append]
    have digits : stemOf width key = stemOf width e.1 ∧ suffixOf width key = suffixOf width e.1 ↔
        key = e.1 := ⟨fun same => key_injective aligned same.1 same.2, fun same => by simp [same]⟩
    simp only [digits]

theorem treeOf_absent (run : List (Word × V)) {k : List (Fin width)} {x : Fin width}
    (odd : ∀ key, stemOf width key = k → suffixOf width key ≠ x) :
    StemTree.lookup (treeOf width run) k x = none := by
  induction run using List.reverseRecOn with
  | nil => cases k <;> rfl
  | append_singleton run e ih =>
    rw [treeOf_append, StemTree.lookup_insert (treeOf_fits cuts run e.1), ih]
    have apart : ¬ (k = stemOf width e.1 ∧ x = suffixOf width e.1) :=
      fun same => odd e.1 same.1.symm same.2.symm
    rw [if_neg apart]

omit cuts in
/-- Runs that end in the same map build the same tree. -/
theorem treeOf_canonical (aligned : Aligned width bits) {run run' : List (Word × V)}
    (same : ∀ key, lastInserted run key = lastInserted run' key) :
    treeOf width run = treeOf width run' := by
  obtain ⟨kids, tree, rooted⟩ := treeOf_rooted aligned.toCuts run
  obtain ⟨kids', tree', rooted'⟩ := treeOf_rooted aligned.toCuts run'
  rw [tree, tree']
  congr 1
  refine rooted_unique rooted rooted' fun k x => ?_
  rw [← tree, ← tree']
  by_cases known : ∃ key, stemOf width key = k ∧ suffixOf width key = x
  · obtain ⟨key, rfl, rfl⟩ := known
    rw [treeOf_lookup aligned, treeOf_lookup aligned, same]
  · have odd : ∀ key, stemOf width key = k → suffixOf width key ≠ x :=
      fun key stem suffix => known ⟨key, stem, suffix⟩
    rw [treeOf_absent aligned.toCuts run odd, treeOf_absent aligned.toCuts run' odd]

end Map

/- Whole runs. -/
section Runs
variable {bits : Nat} [NeZero scheme.width]

/-- A run returns normally, and its tree answers with the last value of a key,
    live and reopened. -/
theorem run_get (lawful : Lawful scheme) (aligned : Aligned scheme.width bits)
    (run : List (Word × V)) (sound : ∀ done, done <+: run → Sound (treeOf scheme.width done))
    (valid : (insertRun scheme run).2.disk.db.Consistent) :
    (insertRun scheme run).1 = .ok () ∧ ∀ key : Word,
      VerkleTrees.get scheme (insertRun scheme run).2 key.bytes =
        .ok ((lastInserted run key).map fun v => ofBytes (Entry.bytes v)) ∧
      ∃ reopened, openTree scheme (insertRun scheme run).2.disk = .ok reopened ∧
        VerkleTrees.get scheme reopened key.bytes =
          .ok ((lastInserted run key).map fun v => ofBytes (Entry.bytes v)) := by
  obtain ⟨fine, kids, follows⟩ := run_follows lawful aligned.toCuts sound valid
  have held := follows_holding follows
  obtain ⟨reopened, opened, disk, held'⟩ := openTree_holding lawful held valid
  refine ⟨fine, fun key => ?_⟩
  have answer := treeOf_lookup aligned run key
  rw [follows.tree] at answer
  rw [← answer]
  exact ⟨get_lookup lawful aligned.toCuts held follows.rooted valid key, reopened, opened,
    get_lookup lawful aligned.toCuts held' follows.rooted (by rw [disk]; exact valid) key⟩

/-- `self.root.commitment_to_children` -/
def rootCommitment (t : VerkleTree Point) : Option Point :=
  (rootNode t).bind TreeNode.commitmentToChildren

theorem follows_root {run : List (Word × V)} {t : VerkleTree Point}
    {kids : Fin scheme.width → Trie scheme.width V} (follows : Follows scheme run t kids)
    (some : run ≠ []) : rootCommitment t = arrayPoint scheme (refs scheme kids) ∧
      t.rootRef = (arrayPoint scheme (refs scheme kids)).map fun p => (pointRef scheme p).bytes := by
  have holding := follows.holding
  rw [if_neg some] at holding
  obtain ⟨id, p, standing, rootRef, _⟩ := holding
  rw [standing.point, rootRef]
  refine ⟨?_, rfl⟩
  simp [rootCommitment, rootNode, standing.root, standing.commitment]

omit [Entry V] in
theorem lastInserted_none {run : List (Word × V)} (none : ∀ key, lastInserted run key = none) :
    run = [] := by
  cases run with
  | nil => rfl
  | cons e run =>
    have here := none e.1
    simp [lastInserted] at here

theorem run_root_canonical (lawful : Lawful scheme) (aligned : Aligned scheme.width bits)
    {run run' : List (Word × V)} (sound : ∀ done, done <+: run → Sound (treeOf scheme.width done))
    (sound' : ∀ done, done <+: run' → Sound (treeOf scheme.width done))
    (valid : (insertRun scheme run).2.disk.db.Consistent)
    (valid' : (insertRun scheme run').2.disk.db.Consistent)
    (same : ∀ key, lastInserted run key = lastInserted run' key) :
    rootCommitment (insertRun scheme run).2 = rootCommitment (insertRun scheme run').2 ∧
      (insertRun scheme run).2.rootRef = (insertRun scheme run').2.rootRef := by
  by_cases none : run = []
  · have none' : run' = [] := lastInserted_none fun key => by rw [← same, none]; rfl
    rw [none, none']
    exact ⟨rfl, rfl⟩
  · have some' : run' ≠ [] := fun none' =>
      none (lastInserted_none fun key => by rw [same, none']; rfl)
    obtain ⟨_, kids, follows⟩ := run_follows lawful aligned.toCuts sound valid
    obtain ⟨_, kids', follows'⟩ := run_follows lawful aligned.toCuts sound' valid'
    have trees := treeOf_canonical aligned same
    rw [follows.tree, follows'.tree] at trees
    cases trees
    obtain ⟨commitment, reference⟩ := follows_root follows none
    obtain ⟨commitment', reference'⟩ := follows_root follows' some'
    exact ⟨commitment.trans commitment'.symm, reference.trans reference'.symm⟩

end Runs

end VerkleRuns
