import StatelessEthereum.VerkleStorage

/- An insert refines the one on abstract trees. Phase 1 leaves a stack whose
   frames climb from the change to the root; phase 2 settles them one by one,
   and each settled frame hangs its subtree into the frame above it. -/
namespace VerkleRefinement
open PythonError BigEndian StateEffect PutLog DiskLog ObjectHeap VerkleSerialization
open VerkleTrees hiding insert get
open StemTree hiding insert lookup
open VerkleStorage
variable {Point V : Type} [Entry V] {scheme : Scheme Point}

/- Single steps. -/

theorem write_run (e : DiskEffect) (t : VerkleTree Point) :
    write e t = (.ok (), { t with disk := t.disk.apply e }) := rfl

theorem readNode_run (node : Nat) (t : VerkleTree Point) :
    readNode node t = (.ok (t.objects.read node), t) := rfl

theorem writeNode_run (node : Nat) (content : TreeNode Point) (t : VerkleTree Point) :
    writeNode node content t = (.ok (), t.store node content) := rfl

theorem allocate_run (content : TreeNode Point) (t : VerkleTree Point) :
    allocate content t = (.ok t.objects.size, t.grow content) := rfl

@[simp] theorem store_size (t : VerkleTree Point) (node : Nat) (content : TreeNode Point) :
    (t.store node content).objects.size = t.objects.size := by
  simp [VerkleTree.store]

@[simp] theorem grow_size (t : VerkleTree Point) (content : TreeNode Point) :
    (t.grow content).objects.size = t.objects.size + 1 := by
  simp [VerkleTree.grow]

@[simp] theorem store_disk (t : VerkleTree Point) (node : Nat) (content : TreeNode Point) :
    (t.store node content).disk = t.disk := rfl

theorem store_same {t : VerkleTree Point} {node : Nat} (held : node < t.objects.size)
    (content : TreeNode Point) : (t.store node content).objects.read node = content :=
  read_write_same held content

theorem grow_new (t : VerkleTree Point) (content : TreeNode Point) :
    (t.grow content).objects.read t.objects.size = content := read_alloc_new _ _

/- What a step leaves alone. -/

structure Keeps (changed : Nat → Prop) (t t' : VerkleTree Point) : Prop where
  objects : ∀ x < t.objects.size, ¬ changed x → t'.objects.read x = t.objects.read x
  size : t.objects.size ≤ t'.objects.size
  db : t.disk.db.Extends t'.disk.db

theorem keeps_refl (changed : Nat → Prop) (t : VerkleTree Point) : Keeps changed t t :=
  ⟨fun _ _ _ => rfl, Nat.le_refl _, extends_refl _⟩

theorem keeps_trans {changed : Nat → Prop} {t u v : VerkleTree Point} (first : Keeps changed t u)
    (next : Keeps changed u v) : Keeps changed t v := by
  refine ⟨fun x held same => ?_, Nat.le_trans first.size next.size,
    extends_trans first.db next.db⟩
  rw [next.objects x (Nat.lt_of_lt_of_le held first.size) same, first.objects x held same]

theorem keeps_mono {few many : Nat → Prop} {t t' : VerkleTree Point} (kept : Keeps few t t')
    (part : ∀ x, few x → many x) : Keeps many t t' :=
  ⟨fun x held same => kept.objects x held fun change => same (part x change), kept.size, kept.db⟩

theorem keeps_alloc (content : TreeNode Point) (t : VerkleTree Point) :
    Keeps (fun _ => False) t (t.grow content) :=
  ⟨fun _ held _ => read_alloc_old held content, by simp, extends_refl _⟩

theorem keeps_write (node : Nat) (content : TreeNode Point) (t : VerkleTree Point) :
    Keeps (fun x => x = node) t (t.store node content) :=
  ⟨fun _ _ other => read_write_other _ other content, by simp, extends_refl _⟩

/- Objects that show a part of an abstract tree. -/

/-- An internal node whose children are all on disk. -/
structure Shows (scheme : Scheme Point) (t : VerkleTree Point) (id : Nat)
    (kids : Fin scheme.width → Trie scheme.width V) : Prop where
  held : id < t.objects.size
  typed : (t.objects.read id).type = .internal
  children : (t.objects.read id).children = childList (refs scheme kids)
  written : ∀ i, Written t.disk.db (kids i)

/-- The frames from a node up to the root, and the tree that comes about when
    they take over a new subtree for it. Parents are older than their children. -/
inductive Spine (scheme : Scheme Point) (t : VerkleTree Point) :
    Nat → List Frame → (Trie scheme.width V → Trie scheme.width V) → Prop
  | root (id : Nat) : Spine scheme t id [⟨none, id⟩] fun s => s
  | step {id p : Nat} {j : Fin scheme.width} {kids : Fin scheme.width → Trie scheme.width V}
      {frames : List Frame} {plug : Trie scheme.width V → Trie scheme.width V} (older : p < id)
      (shows : Shows scheme t p kids) (above : Spine scheme t p frames plug) :
      Spine scheme t id (⟨some (p, .index j.val), id⟩ :: frames)
        fun s => plug (.inner (Function.update kids j s))

theorem shows_keeps {changed : Nat → Prop} {t t' : VerkleTree Point} {id : Nat}
    {kids : Fin scheme.width → Trie scheme.width V} (shows : Shows scheme t id kids)
    (kept : Keeps changed t t') (same : ¬ changed id) : Shows scheme t' id kids := by
  have object := kept.objects id shows.held same
  exact ⟨Nat.lt_of_lt_of_le shows.held kept.size, by rw [object, shows.typed],
    by rw [object, shows.children], fun i => written_later kept.db (shows.written i)⟩

theorem spine_keeps {changed : Nat → Prop} {t t' : VerkleTree Point} {id : Nat}
    {frames : List Frame} {plug : Trie scheme.width V → Trie scheme.width V}
    (spine : Spine scheme t id frames plug) (kept : Keeps changed t t')
    (same : ∀ x < id, (t.objects.read x).type = .internal → ¬ changed x) :
    Spine scheme t' id frames plug := by
  induction spine with
  | root id => exact .root id
  | step older shows above ih =>
    exact .step older (shows_keeps shows kept (same _ older shows.typed))
      (ih fun x below => same x (Nat.lt_trans below older))

/-- The root object after an insert: complete, and on disk with all below it. -/
structure Standing (scheme : Scheme Point) (t : VerkleTree Point) (id : Nat) (p : Point)
    (kids : Fin scheme.width → Trie scheme.width V) : Prop where
  root : t.root = some id
  shows : Shows scheme t id kids
  point : arrayPoint scheme (refs scheme kids) = some p
  value : (t.objects.read id).value = some (pointRef scheme p).bytes
  commitment : (t.objects.read id).commitmentToChildren = some p
  stored : ArrayWritten t.disk.db PREFIX_INTERNAL (refs scheme kids)

/- Phase 2. -/

/-- A node after its commitment, its reference and its storage. -/
def settled (scheme : Scheme Point) (t : VerkleTree Point) (node : Nat) (p : Point)
    (encoded : Bytes) : VerkleTree Point :=
  { t with
    disk := t.disk.apply (.put (pointRef scheme p).bytes encoded)
    objects := t.objects.write node { t.objects.read node with
      commitmentToChildren := some p, value := some (pointRef scheme p).bytes } }

theorem settled_keeps (scheme : Scheme Point) (t : VerkleTree Point) (node : Nat) (p : Point)
    (encoded : Bytes) :
    Keeps (fun x => x = node) t (settled scheme t node p encoded) :=
  ⟨fun _ _ other => read_write_other _ other _, by simp [settled],
    by simpa [settled] using extends_put _ _ _⟩

theorem settle_run (lawful : Lawful scheme) {t : VerkleTree Point} {frame : Frame} {p : Point}
    {encoded : Bytes} (commit : commitNode scheme (t.objects.read frame.node) = .ok p)
    (encode : encodeNode scheme (t.objects.read frame.node) p = .ok encoded) :
    settle scheme frame t =
      link frame (pointRef scheme p).bytes (settled scheme t frame.node p encoded) := by
  have same (value : Option Bytes) (commitment : Option Point) :
      encodeNode scheme { t.objects.read frame.node with
        value := value, commitmentToChildren := commitment } p = .ok encoded := encode
  simp only [settle, bind_run, readNode_run, lift_run, commit, writeNode_run,
    nodeValue_ok lawful, same, write_run, VerkleTree.store, write_write, settled]

theorem holds_put (t : VerkleTree Point) (node : Nat) (p : Point) {encoded : Bytes}
    {content : AnyNode Point} (loads : scheme.deserializeAnyNode encoded = .ok content) :
    Holds scheme (settled scheme t node p encoded).disk.db p content := by
  refine ⟨encoded, ?_, loads⟩
  simp [settled, Store.put]

/-- Settling an internal or a suffix node, up to the link to its parent. -/
theorem settle_array (lawful : Lawful scheme) {t : VerkleTree Point} (frame : Frame)
    {type : NodeType} {flag : UInt8}
    (kind : type = .internal ∧ flag = PREFIX_INTERNAL ∨ type = .suffix ∧ flag = PREFIX_SUFFIX)
    (typed : (t.objects.read frame.node).type = type) {f : Fin scheme.width → Option V}
    (children : (t.objects.read frame.node).children = childList f)
    (readable : Readable (childList f)) :
    ∃ p encoded, arrayPoint scheme f = some p ∧
      settle scheme frame t =
        link frame (pointRef scheme p).bytes (settled scheme t frame.node p encoded) ∧
      ArrayWritten (settled scheme t frame.node p encoded).disk.db flag f := by
  obtain ⟨p, point, run⟩ := commit_childList lawful f
  obtain ⟨encoded, encode, loads⟩ := encode_array lawful kind typed children readable p
  refine ⟨p, encoded, point, settle_run lawful ?_ encode, p, point, holds_put t _ p loads⟩
  rcases kind with ⟨rfl, _⟩ | ⟨rfl, _⟩ <;> simp only [commitNode, typed, children, run]

theorem settle_extension (lawful : Lawful scheme) {t : VerkleTree Point} (frame : Frame)
    (typed : (t.objects.read frame.node).type = .extension) {stem : List (Fin scheme.width)}
    {child : Word} (short : stem.length < 256) (narrow : Narrow stem)
    (covers : (t.objects.read frame.node).stem = stem.map Fin.val)
    (holds : (t.objects.read frame.node).child = some child.bytes) :
    ∃ p encoded, extensionPoint scheme stem (some child) = some p ∧
      settle scheme frame t =
        link frame (pointRef scheme p).bytes (settled scheme t frame.node p encoded) ∧
      ExtensionWritten (settled scheme t frame.node p encoded).disk.db stem child := by
  obtain ⟨p, point, run⟩ := commit_extension lawful narrow (some child)
  obtain ⟨encoded, encode, loads⟩ := encode_extension lawful typed short narrow covers holds p
  refine ⟨p, encoded, point, settle_run lawful ?_ encode, p, point, holds_put t _ p loads⟩
  rw [Option.map_some] at run
  simp only [commitNode, typed, covers, holds, run]

/-- The parent takes over the reference of a subtree that is on disk. -/
theorem link_index {t : VerkleTree Point} (id : Nat) {p : Nat} (j : Fin scheme.width)
    {kids : Fin scheme.width → Trie scheme.width V} (shows : Shows scheme t p kids)
    {s : Trie scheme.width V} (written : Written t.disk.db s) {ref : Word}
    (named : refOf scheme s = some ref) :
    ∃ t', link ⟨some (p, .index j.val), id⟩ ref.bytes t = (.ok (), t') ∧
      Keeps (fun x => x = p) t t' ∧ Shows scheme t' p (Function.update kids j s) := by
  have run : link ⟨some (p, .index j.val), id⟩ ref.bytes t = (.ok (), t.store p
      { t.objects.read p with
        children := childList (refs scheme (Function.update kids j s)) }) := by
    have set := childList_set (refs scheme kids) j ref
    rw [entry_word] at set
    simp only [link, bind_run, readNode_run, lift_run, shows.children, set, writeNode_run,
      refs_update, named]
  refine ⟨_, run, keeps_write p _ t, by simpa using shows.held, ?_, ?_, fun i => ?_⟩
  · simp [store_same shows.held, shows.typed]
  · simp [store_same shows.held]
  · by_cases here : i = j
    · subst here; simpa using written
    · simpa [here] using shows.written i

theorem link_child (t : VerkleTree Point) (id parent : Nat) (value : Bytes) :
    link ⟨some (parent, .child), id⟩ value t =
      (.ok (), t.store parent { t.objects.read parent with child := some value }) := rfl

theorem settle_spine (lawful : Lawful scheme) {t : VerkleTree Point} {id : Nat}
    {frames : List Frame} {plug : Trie scheme.width V → Trie scheme.width V}
    (spine : Spine scheme t id frames plug) {kids : Fin scheme.width → Trie scheme.width V}
    (shows : Shows scheme t id kids) :
    ∃ t' root p kids', plug (.inner kids) = .inner kids' ∧
      forEach (settle scheme) frames t = (.ok (), t') ∧ Standing scheme t' root p kids' := by
  induction frames generalizing t id plug kids with
  | nil => cases spine
  | cons frame frames ih =>
    obtain ⟨point, encoded, committed, run, stored⟩ := settle_array lawful ⟨frame.parent, id⟩
      (Or.inl ⟨rfl, rfl⟩) shows.typed shows.children (childList_words _)
    have kept := settled_keeps scheme t id point encoded
    cases spine with
    | root =>
      refine ⟨_, id, point, kids, rfl, (forEach_cons run []).trans rfl, ?_⟩
      have object := read_write_same shows.held { t.objects.read id with
        commitmentToChildren := some point, value := some (pointRef scheme point).bytes }
      refine ⟨rfl, ⟨?_, ?_, ?_, fun i => written_later kept.db (shows.written i)⟩, committed, ?_,
        ?_, stored⟩
      · simpa [settled] using shows.held
      · simpa [settled, object] using shows.typed
      · simpa [settled, object] using shows.children
      · simp [settled, object]
      · simp [settled, object]
    | @step _ parent j kids' _ plug' older above spine =>
      have above' := shows_keeps above kept (Nat.ne_of_lt older)
      have written : Written (settled scheme t id point encoded).disk.db (.inner kids) :=
        ⟨stored, fun i => written_later kept.db (shows.written i)⟩
      obtain ⟨t', linked, kept', shows'⟩ := link_index id j above' written
        (by rw [refOf, nodePoint_inner, committed]; rfl)
      have spine' := spine_keeps (spine_keeps spine kept fun x below _ =>
        Nat.ne_of_lt (Nat.lt_trans below older)) kept' fun x below _ => Nat.ne_of_lt below
      obtain ⟨t'', root, p, kids'', equal, rest, standing⟩ := ih spine' shows'
      exact ⟨t'', root, p, kids'', equal, by rw [forEach_cons (run.trans linked), rest], standing⟩

theorem settle_above_suffix (lawful : Lawful scheme) {t : VerkleTree Point} {ext p : Nat}
    (j : Fin scheme.width) (apart : p ≠ ext)
    (typed : (t.objects.read ext).type = .extension) {stem : List (Fin scheme.width)}
    {slots : Fin scheme.width → Option V} (storable : Storable stem slots)
    (covers : (t.objects.read ext).stem = stem.map Fin.val) {child : Word}
    (holds : (t.objects.read ext).child = some child.bytes)
    (suffix : ArrayWritten t.disk.db PREFIX_SUFFIX slots)
    (named : suffixRef scheme slots = some child) {kids : Fin scheme.width → Trie scheme.width V}
    (shows : Shows scheme t p kids) :
    ∃ t', settle scheme ⟨some (p, .index j.val), ext⟩ t = (.ok (), t') ∧
      Keeps (fun x => x = ext ∨ x = p) t t' ∧
      Shows scheme t' p (Function.update kids j (.group stem slots)) := by
  obtain ⟨point, encoded, committed, run, stored⟩ := settle_extension lawful
    ⟨some (p, .index j.val), ext⟩ typed storable.short storable.narrow covers holds
  have kept := settled_keeps scheme t ext point encoded
  obtain ⟨q, suffixPoint, inside⟩ := suffix
  have written : Written (settled scheme t ext point encoded).disk.db (.group stem slots) :=
    ⟨storable, ⟨q, suffixPoint, holds_later kept.db inside⟩, child, named, stored⟩
  obtain ⟨t', linked, kept', shows'⟩ := link_index ext j
    (shows_keeps shows kept apart) written (by rw [refOf, nodePoint, named, committed]; rfl)
  exact ⟨t', run.trans linked, keeps_trans (keeps_mono kept fun _ => Or.inl)
    (keeps_mono kept' fun _ => Or.inr), shows'⟩

theorem settle_group (lawful : Lawful scheme) {t : VerkleTree Point} {suf ext p : Nat}
    (j : Fin scheme.width) (heldExt : ext < t.objects.size)
    (apart : suf ≠ ext) (apartSuf : p ≠ suf) (apartExt : p ≠ ext)
    (typedSuf : (t.objects.read suf).type = .suffix)
    {slots : Fin scheme.width → Option V}
    (children : (t.objects.read suf).children = childList slots)
    (typedExt : (t.objects.read ext).type = .extension) {stem : List (Fin scheme.width)}
    (storable : Storable stem slots) (covers : (t.objects.read ext).stem = stem.map Fin.val)
    {kids : Fin scheme.width → Trie scheme.width V} (shows : Shows scheme t p kids)
    (rest : List Frame) :
    ∃ t', forEach (settle scheme)
        (⟨some (ext, .child), suf⟩ :: ⟨some (p, .index j.val), ext⟩ :: rest) t =
          forEach (settle scheme) rest t' ∧
      Keeps (fun x => x = suf ∨ x = ext ∨ x = p) t t' ∧
      Shows scheme t' p (Function.update kids j (.group stem slots)) := by
  obtain ⟨point, encoded, committed, run, stored⟩ := settle_array lawful
    ⟨some (ext, .child), suf⟩ (Or.inr ⟨rfl, rfl⟩) typedSuf children storable.readable
  have named : suffixRef scheme slots = some (pointRef scheme point) := by
    rw [suffixRef, committed]
    rfl
  have kept := settled_keeps scheme t suf point encoded
  have object := kept.objects ext heldExt (Ne.symm apart)
  have held' : ext < (settled scheme t suf point encoded).objects.size :=
    Nat.lt_of_lt_of_le heldExt kept.size
  have linked := link_child (settled scheme t suf point encoded) suf ext
    (pointRef scheme point).bytes
  have kept' := keeps_write ext { (settled scheme t suf point encoded).objects.read ext with
    child := some (pointRef scheme point).bytes } (settled scheme t suf point encoded)
  obtain ⟨t', settles, kept'', shows'⟩ := settle_above_suffix lawful j
    (t := (settled scheme t suf point encoded).store ext
      { (settled scheme t suf point encoded).objects.read ext with
        child := some (pointRef scheme point).bytes })
    apartExt (by simp [store_same held', object, typedExt]) storable
    (by simp [store_same held', object, covers]) (by simp [store_same held']) stored
    named (shows_keeps (shows_keeps shows kept apartSuf) kept' apartExt)
  refine ⟨t', ?_, ?_, shows'⟩
  · rw [forEach_cons (run.trans linked), forEach_cons settles]
  · refine keeps_trans (keeps_mono kept fun _ => Or.inl) (keeps_trans
      (keeps_mono kept' fun _ same => Or.inr (Or.inl same)) (keeps_mono kept'' fun _ same => ?_))
    exact Or.inr same

/- Phase 1. -/

theorem childList_single (x : Fin scheme.width) (v : V) :
    setEntry (List.replicate scheme.width none) x.val (Entry.bytes v) =
      .ok (childList (single x v)) := by
  rw [← childList_bare (V := V), childList_set]
  rfl

def newSuffix (x : Fin scheme.width) (v : V) : TreeNode Point :=
  { type := .suffix, children := childList (single x v) }

def newExtension (stem : List (Fin scheme.width)) : TreeNode Point :=
  { newNode scheme.width .extension with stem := stem.map Fin.val }

def withGroup (t : VerkleTree Point) (stem : List (Fin scheme.width)) (x : Fin scheme.width)
    (v : V) : VerkleTree Point := (t.grow (newSuffix x v)).grow (newExtension stem)

theorem addGroup_run (t : VerkleTree Point) (p j : Nat) (stem : List (Fin scheme.width))
    (x : Fin scheme.width) (v : V) (stack : List Frame) :
    addGroup scheme p j (stem.map Fin.val) x.val (Entry.bytes v) stack t =
      (.ok (⟨some (t.objects.size + 1, .child), t.objects.size⟩ ::
        ⟨some (p, .index j), t.objects.size + 1⟩ :: stack), withGroup t stem x v) := by
  simp only [addGroup, bind_run, childList_single, lift_run, allocate_run, grow_size, pure_run,
    withGroup, newSuffix, newExtension]

theorem withGroup_keeps (t : VerkleTree Point) (stem : List (Fin scheme.width))
    (x : Fin scheme.width) (v : V) : Keeps (fun _ => False) t (withGroup t stem x v) :=
  keeps_trans (keeps_alloc _ _) (keeps_alloc _ _)

theorem withGroup_suffix (t : VerkleTree Point) (stem : List (Fin scheme.width))
    (x : Fin scheme.width) (v : V) :
    (withGroup t stem x v).objects.read t.objects.size = newSuffix x v := by
  have later := (keeps_alloc (newExtension stem) (t.grow (newSuffix x v))).objects t.objects.size
    (by simp) (by simp)
  exact later.trans (grow_new t _)

theorem withGroup_extension (t : VerkleTree Point) (stem : List (Fin scheme.width))
    (x : Fin scheme.width) (v : V) :
    (withGroup t stem x v).objects.read (t.objects.size + 1) = newExtension stem := by
  have new := grow_new (t.grow (newSuffix x v)) (newExtension stem)
  rwa [grow_size] at new

@[simp] theorem withGroup_size (t : VerkleTree Point) (stem : List (Fin scheme.width))
    (x : Fin scheme.width) (v : V) :
    (withGroup t stem x v).objects.size = t.objects.size + 2 := by
  simp [withGroup]

theorem addGroup_settles (lawful : Lawful scheme) {t : VerkleTree Point} {p : Nat}
    {j : Fin scheme.width} {stem : List (Fin scheme.width)}
    {kids : Fin scheme.width → Trie scheme.width V} (shows : Shows scheme t p kids)
    {x : Fin scheme.width} {v : V} (storable : Storable stem (single x v)) (stack : List Frame) :
    ∃ stack' t₁ t₂, addGroup scheme p j.val (stem.map Fin.val) x.val (Entry.bytes v) stack t =
        (.ok stack', t₁) ∧
      forEach (settle scheme) stack' t₁ = forEach (settle scheme) stack t₂ ∧
      Keeps (fun y => y = p) t t₂ ∧
      Shows scheme t₂ p (Function.update kids j (.group stem (single x v))) := by
  have older := shows.held
  have kept := withGroup_keeps t stem x v
  have suffixObject := withGroup_suffix t stem x v
  have extObject := withGroup_extension t stem x v
  have children : ((withGroup t stem x v).objects.read t.objects.size).children =
      childList (single x v) := by rw [suffixObject]; rfl
  obtain ⟨t₂, settles, kept', shows'⟩ := settle_group lawful j
    (show t.objects.size + 1 < (withGroup t stem x v).objects.size by simp)
    (Nat.ne_of_lt (Nat.lt_succ_self _))
    (by omega) (by omega) (by rw [suffixObject]; rfl) children (by rw [extObject]; rfl) storable
    (by rw [extObject]; rfl) (shows_keeps shows kept (by simp)) stack
  refine ⟨_, _, t₂, addGroup_run t p j.val stem x v stack, settles, ?_, shows'⟩
  refine ⟨fun y below other => ?_, Nat.le_trans kept.size kept'.size,
    extends_trans kept.db kept'.db⟩
  rw [kept'.objects y (Nat.lt_of_lt_of_le below kept.size) (by omega),
    kept.objects y below (by simp)]

/-- What the stack builds once its frames settle. -/
def Builds (scheme : Scheme Point) (t : VerkleTree Point) (stack : List Frame)
    (result : Trie scheme.width V) : Prop :=
  ∃ t' root p kids, result = .inner kids ∧
    forEach (settle scheme) stack t = (.ok (), t') ∧ Standing scheme t' root p kids

theorem builds_of_spine (lawful : Lawful scheme) {t : VerkleTree Point} {id : Nat}
    {frames : List Frame} {plug : Trie scheme.width V → Trie scheme.width V}
    (spine : Spine scheme t id frames plug) {kids : Fin scheme.width → Trie scheme.width V}
    (shows : Shows scheme t id kids) : Builds scheme t frames (plug (.inner kids)) := by
  obtain ⟨t', root, p, kids', equal, run, standing⟩ := settle_spine lawful spine shows
  exact ⟨t', root, p, kids', equal, run, standing⟩

/-- A slot in which a new node would hang, with the frames from its parent up. -/
def Hangs (scheme : Scheme Point) (t : VerkleTree Point) (parent : Option (Nat × Slot))
    (frames : List Frame) (plug : Trie scheme.width V → Trie scheme.width V) : Prop :=
  ∃ p, ∃ j : Fin scheme.width, ∃ kids plug', parent = some (p, .index j.val) ∧
    Shows scheme t p kids ∧ Spine scheme t p frames plug' ∧
    plug = fun s => plug' (.inner (Function.update kids j s))

theorem hangs_spine {t : VerkleTree Point} {parent : Option (Nat × Slot)} {frames : List Frame}
    {plug : Trie scheme.width V → Trie scheme.width V} (hangs : Hangs scheme t parent frames plug)
    {id : Nat} (new : t.objects.size ≤ id) : Spine scheme t id (⟨parent, id⟩ :: frames) plug := by
  obtain ⟨p, j, kids, plug', rfl, shows, spine, rfl⟩ := hangs
  exact .step (Nat.lt_of_lt_of_le shows.held new) shows spine

theorem bare_shows (V : Type) [Entry V] (scheme : Scheme Point) (t : VerkleTree Point) :
    Shows scheme (t.grow (newNode scheme.width .internal)) t.objects.size
      (bare : Fin scheme.width → Trie scheme.width V) := by
  have object := grow_new t (newNode scheme.width .internal)
  refine ⟨by simp, by rw [object]; rfl, ?_, fun _ => trivial⟩
  rw [refs_bare, childList_bare, object]
  rfl

theorem addShared_hangs (chunks : List (Fin scheme.width)) {t : VerkleTree Point}
    {parent : Option (Nat × Slot)} {frames : List Frame}
    {plug : Trie scheme.width V → Trie scheme.width V} (hangs : Hangs scheme t parent frames plug) :
    ∃ parent' frames' t', addShared scheme parent (chunks.map Fin.val) frames t =
        (.ok (parent', frames'), t') ∧ Keeps (fun _ => False) t t' ∧
      Hangs scheme t' parent' frames' fun s => plug (nest chunks s) := by
  induction chunks generalizing t parent frames plug with
  | nil => exact ⟨parent, frames, t, rfl, keeps_refl _ t, hangs⟩
  | cons chunk chunks ih =>
    have kept := keeps_alloc (newNode scheme.width .internal) t
    have spine := spine_keeps (hangs_spine hangs (Nat.le_refl _)) kept (by simp)
    have below : Hangs scheme (t.grow (newNode scheme.width .internal))
        (some (t.objects.size, .index chunk.val)) (⟨parent, t.objects.size⟩ :: frames)
        fun s => plug (.inner (Function.update bare chunk s)) :=
      ⟨t.objects.size, chunk, bare, plug, rfl, bare_shows V scheme t, spine, rfl⟩
    obtain ⟨parent', frames', t', run, kept', hangs'⟩ := ih below
    refine ⟨parent', frames', t', ?_, keeps_trans kept kept', hangs'⟩
    rw [List.map_cons, addShared, bind_ok (allocate_run _ _), run]

theorem matchLength_shared (shared : List (Fin scheme.width)) {i j : Fin scheme.width}
    (differ : i ≠ j) (p q : List (Fin scheme.width)) :
    matchLength ((shared ++ i :: p).map Fin.val) ((shared ++ j :: q).map Fin.val) =
      shared.length := by
  induction shared with
  | nil =>
    have apart : i.val ≠ j.val := fun equal => differ (Fin.ext equal)
    simp [matchLength, apart]
  | cons c shared ih => simpa [matchLength] using ih

theorem chunkAt_shared {shared p : List (Fin scheme.width)} {i : Fin scheme.width} :
    chunkAt ((shared ++ i :: p).map Fin.val) shared.length = .ok i.val := by
  simp [chunkAt]

/-- An extension object of a group whose suffix node is on disk. -/
structure ShowsGroup (scheme : Scheme Point) (t : VerkleTree Point) (id : Nat)
    (stem : List (Fin scheme.width)) (slots : Fin scheme.width → Option V) (child : Word) :
    Prop where
  held : id < t.objects.size
  typed : (t.objects.read id).type = .extension
  covers : (t.objects.read id).stem = stem.map Fin.val
  holds : (t.objects.read id).child = some child.bytes
  stored : ArrayWritten t.disk.db PREFIX_SUFFIX slots
  named : suffixRef scheme slots = some child

theorem showsGroup_keeps {changed : Nat → Prop} {t t' : VerkleTree Point} {id : Nat}
    {stem : List (Fin scheme.width)} {slots : Fin scheme.width → Option V} {child : Word}
    (group : ShowsGroup scheme t id stem slots child) (kept : Keeps changed t t')
    (same : ¬ changed id) : ShowsGroup scheme t' id stem slots child := by
  have object := kept.objects id group.held same
  obtain ⟨p, point, holds⟩ := group.stored
  exact ⟨Nat.lt_of_lt_of_le group.held kept.size, by rw [object, group.typed],
    by rw [object, group.covers], by rw [object, group.holds],
    ⟨p, point, holds_later kept.db holds⟩, group.named⟩

/-- A node that parts an old group from a new one. -/
theorem fork_builds (lawful : Lawful scheme) {t : VerkleTree Point} {node fork : Nat}
    {frames : List Frame} {plug : Trie scheme.width V → Trie scheme.width V}
    (spine : Spine scheme t fork frames plug)
    (shows : Shows scheme t fork (bare : Fin scheme.width → Trie scheme.width V))
    {stem newStem : List (Fin scheme.width)} {slots : Fin scheme.width → Option V}
    {child : Word} (group : ShowsGroup scheme t node stem slots child)
    (storable : Storable stem slots) {x : Fin scheme.width} {v : V}
    (storable' : Storable newStem (single x v)) {i j : Fin scheme.width} (differ : i ≠ j) :
    ∃ stack' t₁, addGroup scheme fork j.val (newStem.map Fin.val) x.val (Entry.bytes v)
        (⟨some (fork, .index i.val), node⟩ :: frames) t = (.ok stack', t₁) ∧
      Builds scheme t₁ stack' (plug (.inner (Function.update
        (Function.update bare i (.group stem slots)) j (.group newStem (single x v))))) := by
  have notInternal : (t.objects.read node).type ≠ .internal := by simp [group.typed]
  have apart : fork ≠ node := fun equal => notInternal (equal ▸ shows.typed)
  obtain ⟨stack', t₁, t₂, added, settles, kept, shows₂⟩ := addGroup_settles lawful (j := j)
    shows storable' (⟨some (fork, .index i.val), node⟩ :: frames)
  have group₂ := showsGroup_keeps group kept (Ne.symm apart)
  obtain ⟨t₃, run, kept₃, shows₃⟩ := settle_above_suffix lawful i apart group₂.typed storable
    group₂.covers group₂.holds group₂.stored group₂.named shows₂
  have spine₂ := spine_keeps spine kept fun y below _ => Nat.ne_of_lt below
  have spine₃ := spine_keeps spine₂ kept₃ fun y below internal => by
    rintro (rfl | rfl)
    · rw [group₂.typed] at internal
      simp at internal
    · omega
  obtain ⟨t₄, root, p, kids, equal, rest, standing⟩ := builds_of_spine lawful spine₃ shows₃
  refine ⟨stack', t₁, added, t₄, root, p, kids, ?_, ?_, standing⟩
  · rw [← equal, Function.update_comm differ]
  · rw [settles, forEach_cons run, rest]

/-- Another stem at an extension: both groups end below a new internal node. -/
theorem diverge_builds (lawful : Lawful scheme) {t : VerkleTree Point} {node : Nat}
    {top : Frame} {frames : List Frame} {plug : Trie scheme.width V → Trie scheme.width V}
    (hangs : Hangs scheme t top.parent frames plug) {stem newStem : List (Fin scheme.width)}
    {slots : Fin scheme.width → Option V} {child : Word}
    (group : ShowsGroup scheme t node stem slots child) (lengths : stem.length = newStem.length)
    (apart : stem ≠ newStem) {x : Fin scheme.width} {v : V}
    (sound : Sound (part slots (single x v) stem newStem)) :
    ∃ stack' t₁, diverge scheme node (newStem.map Fin.val) x.val (Entry.bytes v) (top :: frames) t =
        (.ok stack', t₁) ∧
      Builds scheme t₁ stack' (plug (part slots (single x v) stem newStem)) := by
  obtain ⟨shared, i, p, j, q, rfl, rfl, differ, built⟩ := part_nest slots (single x v) lengths apart
  rw [built] at sound
  have old : Storable p slots := by simpa [differ] using sound_nest sound i
  have new : Storable q (single x v) := by simpa using sound_nest sound j
  obtain ⟨parent, frames', t₁, chain, kept₁, hangs₁⟩ := addShared_hangs shared hangs
  have kept₂ := keeps_alloc (newNode scheme.width .internal) t₁
  have group₁ := showsGroup_keeps group kept₁ (by simp)
  have group₂ := showsGroup_keeps group₁ kept₂ (by simp)
  let t₂ := t₁.grow (newNode scheme.width .internal)
  let t₃ := t₂.store node { t.objects.read node with stem := p.map Fin.val }
  have kept₃ : Keeps (fun y => y = node) t₂ t₃ := keeps_write _ _ _
  have object : t₃.objects.read node = { t.objects.read node with stem := p.map Fin.val } :=
    store_same group₂.held _
  have group₃ : ShowsGroup scheme t₃ node p slots child :=
    ⟨by rw [store_size]; exact group₂.held, by rw [object]; exact group.typed, by rw [object],
      by rw [object]; exact group.holds, group₂.stored, group.named⟩
  have spine₂ := spine_keeps (hangs_spine hangs₁ (Nat.le_refl _)) kept₂ (by simp)
  have spine₃ := spine_keeps spine₂ kept₃ fun y _ internal => by
    rintro rfl
    rw [group₂.typed] at internal
    simp at internal
  obtain ⟨stack', t₄, added, builds⟩ := fork_builds lawful spine₃
    (shows_keeps (bare_shows V scheme t₁) kept₃ (Nat.ne_of_gt group₁.held)) group₃
    old new differ
  refine ⟨stack', t₄, ?_, built ▸ builds⟩
  have matched := matchLength_shared shared differ p q
  have taken : ((shared ++ i :: p).map Fin.val).take shared.length = shared.map Fin.val := by
    simp
  have dropped (k : Fin scheme.width) (r : List (Fin scheme.width)) :
      ((shared ++ k :: r).map Fin.val).drop (shared.length + 1) = r.map Fin.val := by
    simp [← List.drop_drop]
  unfold diverge
  rw [bind_ok (readNode_run _ _)]
  simp only [group.covers, matched, taken]
  rw [bind_ok chain]
  simp only [bind_run, allocate_run, lift_run, chunkAt_shared, writeNode_run, dropped]
  exact added

theorem load_run {t : VerkleTree Point} {reference : Option Bytes} {content : TreeNode Point}
    (loads : makeTreeNode scheme t.disk.db reference = .ok content) :
    load scheme reference t = (.ok t.objects.size, t.grow content) := by
  simp only [load, bind_run, reads_run, loads, allocate_run]

theorem childList_entry {node : TreeNode Point} {f : Fin scheme.width → Option Word}
    (children : node.children = childList f) (i : Fin scheme.width) (t : VerkleTree Point) :
    lift (entry node.children i.val) t = (.ok ((f i).map Word.bytes), t) := by
  rw [children, childList_get, entry_words, lift_run]

theorem descend_extension {t : VerkleTree Point} {node : Nat}
    (typed : (t.objects.read node).type = .extension) (suffix : Nat) (value : Bytes)
    (rest : List Nat) (stack : List Frame) :
    descend scheme suffix value rest node stack t =
      atExtension scheme node rest suffix value stack t := by
  rw [descend, bind_ok (readNode_run _ _)]
  simp only [typed]

theorem descend_same (lawful : Lawful scheme) {t : VerkleTree Point} (valid : t.disk.db.Consistent)
    {node : Nat} {stem : List (Fin scheme.width)} {slots : Fin scheme.width → Option V}
    {child : Word} (group : ShowsGroup scheme t node stem slots child) (x : Fin scheme.width)
    (v : V) (stack : List Frame) :
    ∃ t₁, descend scheme x.val (Entry.bytes v) (stem.map Fin.val) node stack t =
        (.ok (⟨some (node, .child), t.objects.size⟩ :: stack), t₁) ∧
      Keeps (fun _ => False) t t₁ ∧ t.objects.size < t₁.objects.size ∧
      (t₁.objects.read t.objects.size).type = .suffix ∧
      (t₁.objects.read t.objects.size).children =
        childList (Function.update slots x (some v)) := by
  obtain ⟨q, point, holds⟩ := group.stored
  have ref : child = pointRef scheme q := by
    have named := group.named
    rw [suffixRef, point] at named
    simpa using named.symm
  have loads := load_array lawful valid point ⟨q, point, holds⟩
  rw [← ref] at loads
  have kept := keeps_alloc (arrayNode scheme .suffix slots q) t
  let after : TreeNode Point := { arrayNode scheme .suffix slots q with
    children := childList (Function.update slots x (some v)) }
  have object : ((t.grow (arrayNode scheme .suffix slots q)).store t.objects.size
      after).objects.read t.objects.size = after := store_same (by simp) after
  refine ⟨(t.grow (arrayNode scheme .suffix slots q)).store t.objects.size after, ?_, ?_,
    by simp, by rw [object]; rfl, by rw [object]⟩
  · rw [descend_extension group.typed, atExtension, bind_ok (readNode_run _ _)]
    simp only [group.covers, group.holds, ↓reduceIte]
    rw [bind_ok (load_run loads)]
    have set := childList_set slots x v
    simp only [putValue, bind_run, readNode_run, grow_new, lift_run, arrayNode, set,
      writeNode_run, pure_run, after]
    rfl
  · refine ⟨fun y below _ => ?_, by simp, kept.db⟩
    rw [← kept.objects y below (by simp)]
    exact read_write_other _ (Nat.ne_of_lt below) after

/-- The loop of phase 1 once it has come to an extension. -/
theorem descend_group (lawful : Lawful scheme) {t : VerkleTree Point} (valid : t.disk.db.Consistent)
    {node p : Nat} (slot : Fin scheme.width) {frames : List Frame}
    {kids : Fin scheme.width → Trie scheme.width V}
    {plug : Trie scheme.width V → Trie scheme.width V} (older : p < node)
    (shows : Shows scheme t p kids)
    (spine : Spine scheme t p frames plug) {stem rest : List (Fin scheme.width)}
    {slots : Fin scheme.width → Option V} {child : Word}
    (group : ShowsGroup scheme t node stem slots child) (lengths : stem.length = rest.length)
    {x : Fin scheme.width} {v : V} (sound : Sound (StemTree.insert (.group stem slots) rest x v)) :
    ∃ stack' t₁, descend scheme x.val (Entry.bytes v) (rest.map Fin.val) node
        (⟨some (p, .index slot.val), node⟩ :: frames) t = (.ok stack', t₁) ∧
      Builds scheme t₁ stack' (plug (.inner (Function.update kids slot
        (StemTree.insert (.group stem slots) rest x v)))) := by
  by_cases same : stem = rest
  · subst same
    have storable : Storable stem (Function.update slots x (some v)) := by
      simpa [StemTree.insert] using sound
    obtain ⟨t₁, run, kept, held, typed, children⟩ := descend_same lawful valid group x v
      (⟨some (p, .index slot.val), node⟩ :: frames)
    have group₁ := showsGroup_keeps group kept (by simp)
    have new := group.held
    obtain ⟨t₂, settles, kept₂, shows₂⟩ := settle_group lawful slot group₁.held
      (Nat.ne_of_gt new) (by omega) (Nat.ne_of_lt older) typed children group₁.typed storable
      group₁.covers (shows_keeps shows kept (by simp)) frames
    have spine₂ := spine_keeps (spine_keeps spine kept (by simp)) kept₂ fun y below _ => by
      omega
    obtain ⟨t₃, root, q, kids', equal, rest, standing⟩ := builds_of_spine lawful spine₂ shows₂
    refine ⟨_, t₁, run, t₃, root, q, kids', ?_, settles.trans rest, standing⟩
    simpa [StemTree.insert] using equal
  · have hangs : Hangs scheme t (⟨some (p, .index slot.val), node⟩ : Frame).parent frames
        fun s => plug (.inner (Function.update kids slot s)) :=
      ⟨p, slot, kids, plug, rfl, shows, spine, rfl⟩
    obtain ⟨stack', t₁, run, builds⟩ := diverge_builds lawful hangs group lengths same
      (by simpa [StemTree.insert, same] using sound)
    refine ⟨stack', t₁, ?_, by simpa [StemTree.insert, same] using builds⟩
    have apart : ¬ stem.map Fin.val = rest.map Fin.val := fun equal =>
      same (List.map_injective_iff.mpr Fin.val_injective equal)
    rw [descend_extension group.typed, atExtension, bind_ok (readNode_run _ _)]
    simp only [group.covers, apart, ↓reduceIte]
    exact run

/-- An internal node as the loop of phase 1 meets it below another. -/
theorem loaded_shows (t : VerkleTree Point) {kids : Fin scheme.width → Trie scheme.width V}
    (written : ∀ i, Written t.disk.db (kids i)) (p : Point) :
    Shows scheme (t.grow (arrayNode scheme .internal (refs scheme kids) p)) t.objects.size
      kids := by
  have object := grow_new t (arrayNode scheme .internal (refs scheme kids) p)
  exact ⟨by simp, by rw [object]; rfl, by rw [object]; rfl, written⟩

theorem descend_none {t : VerkleTree Point} {node : Nat}
    {kids : Fin scheme.width → Trie scheme.width V} (shows : Shows scheme t node kids)
    {i : Fin scheme.width} (none : refOf scheme (kids i) = none) (k : List (Fin scheme.width))
    (suffix : Nat) (value : Bytes) (stack : List Frame) :
    descend scheme suffix value ((i :: k).map Fin.val) node stack t =
      addGroup scheme node i.val (k.map Fin.val) suffix value stack t := by
  rw [descend, bind_ok (readNode_run _ _)]
  simp only [shows.typed, List.map_cons]
  rw [bind_ok (childList_entry shows.children i t)]
  simp only [refs, none, Option.map_none]

theorem descend_some {t : VerkleTree Point} {node : Nat}
    {kids : Fin scheme.width → Trie scheme.width V} (shows : Shows scheme t node kids)
    {i : Fin scheme.width} {ref : Word} (found : refOf scheme (kids i) = some ref)
    {content : TreeNode Point}
    (loads : makeTreeNode scheme t.disk.db (some ref.bytes) = .ok content)
    (k : List (Fin scheme.width)) (suffix : Nat) (value : Bytes) (stack : List Frame) :
    descend scheme suffix value ((i :: k).map Fin.val) node stack t =
      descend scheme suffix value (k.map Fin.val) t.objects.size
        (⟨some (node, .index i.val), t.objects.size⟩ :: stack) (t.grow content) := by
  rw [descend, bind_ok (readNode_run _ _)]
  simp only [shows.typed, List.map_cons]
  rw [bind_ok (childList_entry shows.children i t)]
  simp only [refs, found, Option.map_some]
  rw [bind_ok (load_run loads)]

/-- Phase 1 where no further internal node lies on the way. -/
theorem descend_below (lawful : Lawful scheme) (x : Fin scheme.width) (v : V)
    {k : List (Fin scheme.width)} {i : Fin scheme.width}
    {t : VerkleTree Point} (valid : t.disk.db.Consistent) {node : Nat} {stack : List Frame}
    {plug : Trie scheme.width V → Trie scheme.width V} (spine : Spine scheme t node stack plug)
    {kids : Fin scheme.width → Trie scheme.width V} (shows : Shows scheme t node kids)
    (fits : Fits (kids i) k.length) (sound : Sound (StemTree.insert (kids i) k x v))
    (last : ¬ IsInner (kids i)) :
    ∃ stack' t₁, descend scheme x.val (Entry.bytes v) ((i :: k).map Fin.val) node stack t =
        (.ok stack', t₁) ∧
      Builds scheme t₁ stack' (plug (StemTree.insert (.inner kids) (i :: k) x v)) := by
  have below := shows.written i
  cases kind : kids i with
  | inner kids' => simp [kind, IsInner] at last
  | empty =>
    rw [kind] at sound
    obtain ⟨stack', t₁, t₂, added, settles, kept, shows₂⟩ :=
      addGroup_settles lawful (j := i) shows sound stack
    have spine₂ := spine_keeps spine kept fun y older _ => Nat.ne_of_lt older
    obtain ⟨t₃, root, p, kids', equal, rest, standing⟩ := builds_of_spine lawful spine₂ shows₂
    refine ⟨stack', t₁, ?_, t₃, root, p, kids', ?_, settles.trans rest, standing⟩
    · rw [descend_none shows (by rw [kind]; rfl), added]
    · rw [← equal, StemTree.insert, kind, StemTree.insert]
  | group stem slots =>
    rw [kind] at below fits sound
    obtain ⟨storable, stored, child, named, q, point, holds⟩ := below
    have found : refOf scheme (kids i) = some (pointRef scheme q) := by
      rw [kind, refOf, nodePoint, named, point]
      rfl
    have loads := load_extension lawful valid storable.narrow point ⟨q, point, holds⟩
    have kept := keeps_alloc (extensionNode scheme stem child q) t
    have object := grow_new t (extensionNode scheme stem child q)
    have group : ShowsGroup scheme (t.grow (extensionNode scheme stem child q)) t.objects.size stem
        slots child :=
      ⟨by simp, by rw [object]; rfl, by rw [object]; rfl, by rw [object]; rfl, stored, named⟩
    obtain ⟨stack', t₁, run, builds⟩ := descend_group lawful
      (t := t.grow (extensionNode scheme stem child q)) valid i shows.held
      (shows_keeps shows kept (by simp)) (spine_keeps spine kept (by simp)) group fits sound
    refine ⟨stack', t₁, (descend_some shows found loads k _ _ _).trans run, ?_⟩
    rwa [StemTree.insert, kind]

/-- Phase 1: the stack it leaves builds the tree after the insert. -/
theorem descend_builds (lawful : Lawful scheme) (x : Fin scheme.width) (v : V)
    (k : List (Fin scheme.width)) (i : Fin scheme.width)
    {t : VerkleTree Point} (valid : t.disk.db.Consistent) {node : Nat} {stack : List Frame}
    {plug : Trie scheme.width V → Trie scheme.width V} (spine : Spine scheme t node stack plug)
    {kids : Fin scheme.width → Trie scheme.width V} (shows : Shows scheme t node kids)
    (fits : Fits (kids i) k.length) (sound : Sound (StemTree.insert (kids i) k x v)) :
    ∃ stack' t₁, descend scheme x.val (Entry.bytes v) ((i :: k).map Fin.val) node stack t =
        (.ok stack', t₁) ∧
      Builds scheme t₁ stack' (plug (StemTree.insert (.inner kids) (i :: k) x v)) := by
  induction k generalizing i t node stack plug kids with
  | nil =>
    refine descend_below lawful x v valid spine shows fits sound fun inner => ?_
    cases kind : kids i <;> simp [kind, IsInner, Fits] at inner fits
  | cons i' k ih =>
    cases kind : kids i with
    | inner kids' =>
      have written := shows.written i
      rw [kind] at fits written sound
      obtain ⟨m, size, below⟩ := fits
      simp only [List.length_cons, Nat.add_right_cancel_iff] at size
      obtain ⟨⟨p, point, holds⟩, under⟩ := written
      have deeper : Sound (StemTree.insert (kids' i') k x v) := by
        simpa [StemTree.insert] using sound i'
      have found : refOf scheme (kids i) = some (pointRef scheme p) := by
        rw [kind, refOf, nodePoint_inner, point]
        rfl
      have loads := load_array lawful valid point ⟨p, point, holds⟩
      have kept := keeps_alloc (arrayNode scheme .internal (refs scheme kids') p) t
      obtain ⟨stack', t₁, run, builds⟩ := ih i'
        (t := t.grow (arrayNode scheme .internal (refs scheme kids') p)) valid
        (.step (j := i) shows.held (shows_keeps shows kept (by simp))
          (spine_keeps spine kept (by simp)))
        (loaded_shows t under p) (size ▸ below i') deeper
      refine ⟨stack', t₁, (descend_some shows found loads (i' :: k) _ _ _).trans run, ?_⟩
      rwa [StemTree.insert, kind]
    | _ => exact descend_below lawful x v valid spine shows fits sound (by simp [kind, IsInner])

end VerkleRefinement
