import StatelessEthereum.FailedInserts
import StatelessEthereum.DiskSessions
import StatelessEthereum.VerkleCompleteness

/- A Verkle tree over many processes. -/
namespace VerkleSessions
open PythonError BigEndian StateEffect PutLog DiskLog CrashRecovery DiskSessions ObjectHeap
open VerkleSerialization PolyUtils KzgSetup KzgScheme KeyCollisions FailedInserts
open VerkleTrees hiding insert get
open StemTree hiding insert lookup
open VerkleStorage VerkleRefinement VerkleKey VerkleRuns VerkleRefusal
open IdealCurve VerkleOpenings VerkleCompleteness
variable {Point G1 G2 FQ12 : Type} {scheme : Scheme Point}

/- The effects of one insert. -/

def TreeAdds (s t : VerkleTree Point) : Prop := Adds s.disk t.disk

theorem adds_quiet (s t : VerkleTree Point) (same : t.disk = s.disk) : TreeAdds s t := by
  rw [TreeAdds, same]
  exact adds_refl _

theorem treeAdds_trans (s t u : VerkleTree Point) (first : TreeAdds s t) (next : TreeAdds t u) :
    TreeAdds s u := adds_trans first next

theorem adds_puts (s : VerkleTree Point) (r e : Bytes) :
    TreeAdds s { s with disk := s.disk.apply (.put r e) } := adds_put s.disk r e

/-- An insert that returns stores nodes, empties the file of the root and writes the
    new reference. -/
theorem insert_effects {key value : Bytes} {t t' : VerkleTree Point}
    (run : VerkleTrees.insert scheme key value t = (.ok (), t')) :
    ∃ d r, Adds t.disk d ∧ t'.disk = (d.apply .truncateRoot).apply (.writeRoot r) := by
  obtain ⟨⟨stem, suffix⟩, t₁, here, run⟩ := bind_inv run
  obtain ⟨root, t₂, made, run⟩ := bind_inv run
  obtain ⟨stack, t₃, down, run⟩ := bind_inv run
  obtain ⟨_, t₄, up, run⟩ := bind_inv run
  have first : TreeAdds t t₁ := by
    have moved := lift_moves adds_quiet (splitKey scheme.width key) t
    rwa [here] at moved
  have second : TreeAdds t₁ t₂ := by
    have moved := @ensureRoot_moves _ scheme _ adds_quiet treeAdds_trans t₁
    rwa [made] at moved
  have third : TreeAdds t₂ t₃ := by
    have moved := @descend_moves _ scheme _ adds_quiet treeAdds_trans suffix value stem root
      [⟨none, root⟩] t₂
    rwa [down] at moved
  have fourth : TreeAdds t₃ t₄ := by
    have moved := along_forEach (fun s => adds_quiet s s rfl) treeAdds_trans
      (@settle_moves _ scheme _ adds_quiet treeAdds_trans adds_puts) stack t₃
    rwa [up] at moved
  obtain ⟨_, t₅, truncated, run⟩ := bind_inv run
  obtain ⟨reference, t₆, read, run⟩ := bind_inv run
  obtain ⟨_, t₇, written, run⟩ := bind_inv run
  cases truncated
  cases written
  cases run
  have same : t₆ = { t₄ with disk := t₄.disk.apply .truncateRoot } := by
    rw [reads_run] at read
    exact (congrArg Prod.snd read).symm
  refine ⟨t₄.disk, reference, adds_trans first (adds_trans second (adds_trans third fourth)), ?_⟩
  rw [same]

/- Processes one after the other. -/

/-- The tree as `insert` leaves it, and the constructor where it returns. -/
def treeKeeper (scheme : Scheme Point) : Keeper (VerkleTree Point) (Word × Word) where
  empty := emptyTree
  disk := VerkleTree.disk
  insert e t := (VerkleTrees.insert scheme e.1.bytes e.2.bytes t).2
  opens d t := openTree scheme d = .ok t
  opened_disk _ _ opened := openTree_disk opened
  insert_grows e t := insert_grows e.1.bytes e.2.bytes t

theorem keeper_disk (scheme : Scheme Point) (t : VerkleTree Point) :
    (treeKeeper scheme).disk t = t.disk := rfl

/-- The inserts whose effects a tree has, and the tree. -/
abbrev State (Point : Type) := List (Word × Word) × VerkleTree Point

theorem openTree_unrooted {d : Disk} (file : d.rootFile = none ∨ d.rootFile = some [])
    {u : VerkleTree Point} (opened : openTree scheme d = .ok u) : u.root = none := by
  rcases file with file | file <;>
  · rw [openTree, file] at opened
    cases opened
    rfl

theorem represents_file {t : VerkleTree Point} {kids : Fin scheme.width → Trie scheme.width}
    (held : Represents scheme t kids) : ∃ r : Word, t.disk.rootFile = some r.bytes := by
  obtain ⟨_, p, _, _, file⟩ := held
  exact ⟨pointRef scheme p, file⟩

theorem word_nonempty (r : Word) : r.bytes ≠ [] := by
  intro none
  have size := r.size
  simp [none] at size

theorem represents_reopens (lawful : Lawful scheme) {t u : VerkleTree Point}
    {kids : Fin scheme.width → Trie scheme.width} (held : Represents scheme t kids)
    (valid : t.disk.db.Consistent) (opened : openTree scheme t.disk = .ok u) :
    Represents scheme u kids := by
  obtain ⟨reopened, opened', disk, held'⟩ := openTree_holding lawful (Or.inr held) valid
  cases opened.symm.trans opened'
  rcases held' with ⟨idle, _⟩ | represents
  · obtain ⟨r, file⟩ := represents_file held
    have unnamed := idle.unnamed
    rw [disk, file] at unnamed
    cases unnamed
  · exact represents

/-- Another disk that has the nodes and the file keeps a tree what it is. -/
theorem represents_moved {t : VerkleTree Point} {kids : Fin scheme.width → Trie scheme.width}
    (held : Represents scheme t kids) {d : Disk} (grown : t.disk.db.Extends d.db)
    (file : d.rootFile = t.disk.rootFile) : Represents scheme { t with disk := d } kids := by
  have spared : VerkleRefusal.Spares (fun _ => False) t { t with disk := d } :=
    ⟨⟨fun _ _ _ => rfl, Nat.le_refl _, grown⟩, rfl, rfl, file⟩
  rcases holding_spares (Or.inr held) spared with ⟨idle, _⟩ | represents
  · obtain ⟨r, named⟩ := represents_file held
    have unnamed := idle.unnamed
    rw [show d.rootFile = t.disk.rootFile from file, named] at unnamed
    cases unnamed
  · exact represents

section Keys
variable {bits : Nat} [NeZero scheme.width]

/-- A tree that has the effects of a run: none, with no root to read, or all of them. -/
structure Kept (scheme : Scheme Point) [NeZero scheme.width] (run : List (Word × Word))
    (t : VerkleTree Point) (kids : Fin scheme.width → Trie scheme.width) : Prop where
  tree : treeOf scheme.width run = .inner kids
  rooted : Rooted kids (depth scheme.width)
  held : if run = [] then t.root = none ∧ (t.disk.rootFile = none ∨ t.disk.rootFile = some [])
    else Represents scheme t kids

theorem kept_empty {t : VerkleTree Point} (root : t.root = none)
    (file : t.disk.rootFile = none ∨ t.disk.rootFile = some []) : Kept scheme [] t bare :=
  ⟨rfl, rooted_bare _, by rw [if_pos rfl]; exact ⟨root, file⟩⟩

variable (lawful : Lawful scheme) (cuts : Cuts scheme.width bits) (narrow : scheme.width ≤ 256)

include cuts narrow lawful

theorem kept_insert {run : List (Word × Word)} {t : VerkleTree Point}
    {kids : Fin scheme.width → Trie scheme.width} (kept : Kept scheme run t kids)
    (valid : t.disk.db.Consistent) (e : Word × Word) :
    (VerkleTrees.insert scheme e.1.bytes e.2.bytes t).1 = .ok () ∧
      ∃ kids', Kept scheme (run ++ [e])
        (VerkleTrees.insert scheme e.1.bytes e.2.bytes t).2 kids' := by
  have whole := treeOf_words cuts narrow (run ++ [e])
  rw [treeOf_append, kept.tree] at whole
  have held := kept.held
  have goal {kids' : Fin scheme.width → Trie scheme.width}
      (tree : insertKey (.inner kids) e.1 e.2 = .inner kids')
      (rooted : Rooted kids' (depth scheme.width))
      (shown : Represents scheme (VerkleTrees.insert scheme e.1.bytes e.2.bytes t).2 kids') :
      Kept scheme (run ++ [e]) (VerkleTrees.insert scheme e.1.bytes e.2.bytes t).2 kids' :=
    ⟨by rw [treeOf_append, kept.tree]; exact tree, rooted, by rw [if_neg (by simp)]; exact shown⟩
  by_cases none : run = []
  · rw [if_pos none] at held
    have bare_kids : kids = bare := by
      have tree := kept.tree
      rw [none] at tree
      exact (Tree.inner.inj tree).symm
    subst bare_kids
    have made : ensureRoot scheme t = (.ok t.objects.size,
        { t.grow (newNode scheme.width .internal) with root := some t.objects.size }) := by
      simp only [ensureRoot, bind_run, reads_run, held.1, allocate_run, modify_run, pure_run]
    have shows := bare_shows Word scheme t
    obtain ⟨kids', tree, rooted, fine, shown⟩ := insert_shown lawful cuts made rfl
      ⟨shows.held, shows.typed, shows.children, shows.written⟩ kept.rooted e.1 e.2 whole valid
    exact ⟨fine, kids', goal tree rooted shown⟩
  · rw [if_neg none] at held
    obtain ⟨kids', tree, rooted, fine, shown⟩ := insert_represents lawful cuts (Or.inr held)
      kept.rooted e.1 e.2 whole valid
    exact ⟨fine, kids', goal tree rooted shown⟩

omit cuts narrow in
/-- More nodes on disk are nothing to the next process. -/
theorem kept_reopen {run : List (Word × Word)} {t u : VerkleTree Point}
    {kids : Fin scheme.width → Trie scheme.width} (kept : Kept scheme run t kids) {d : Disk}
    (nodes : Adds t.disk d) (valid : d.db.Consistent) (opened : openTree scheme d = .ok u) :
    Kept scheme run u kids := by
  have held := kept.held
  have file := adds_rootFile nodes
  refine ⟨kept.tree, kept.rooted, ?_⟩
  by_cases none : run = []
  · rw [if_pos none, ← file] at held
    rw [if_pos none]
    exact ⟨openTree_unrooted held.2 opened, by rw [openTree_disk opened]; exact held.2⟩
  · rw [if_neg none] at held ⊢
    exact represents_reopens lawful (represents_moved held (adds_db nodes) file) valid opened

omit lawful cuts narrow in
theorem kept_truncated {run : List (Word × Word)} {t : VerkleTree Point}
    {kids : Fin scheme.width → Trie scheme.width} (kept : Kept scheme run t kids)
    (truncated : Truncated t.disk) : run = [] := by
  by_contra some
  have held := kept.held
  rw [if_neg some] at held
  obtain ⟨named, file⟩ := represents_file held
  rw [truncated_file truncated, Option.some.injEq] at file
  exact word_nonempty named file.symm

theorem kept_keeps : Keeps (treeKeeper scheme) (fun d => d.db.Consistent)
    fun run t => ∃ kids, Kept scheme run t kids where
  earlier _ _ grown valid := consistent_earlier grown valid
  empty := ⟨bare, kept_empty rfl (Or.inl rfl)⟩
  writes := by
    rintro run t e ⟨kids, kept⟩ valid
    exact Or.inl (insert_effects (Prod.ext (kept_insert lawful cuts narrow kept valid e).1 rfl))
  insert := by
    rintro run t e ⟨kids, kept⟩ valid
    have before := consistent_earlier (insert_grows e.1.bytes e.2.bytes t) valid
    exact (kept_insert lawful cuts narrow kept before e).2
  reopen := by
    rintro run t u d ⟨kids, kept⟩ nodes valid opened
    exact ⟨kids, kept_reopen lawful kept nodes valid opened⟩
  emptied := by
    intro d u file opened
    exact ⟨bare, kept_empty (openTree_unrooted (Or.inr file) opened)
      (by rw [openTree_disk opened]; exact Or.inr file)⟩
  truncated := by
    rintro run t ⟨kids, kept⟩ truncated
    exact kept_truncated kept truncated

theorem session_kept {s : State Point} (session : Session (treeKeeper scheme) s)
    (valid : s.2.disk.db.Consistent) : ∃ kids, Kept scheme s.1 s.2 kids :=
  keeps_session (kept_keeps lawful cuts narrow) session valid

/- What a tree with the effects of a run answers. -/

omit narrow in
theorem kept_answers {run : List (Word × Word)} {t : VerkleTree Point}
    {kids : Fin scheme.width → Trie scheme.width} (kept : Kept scheme run t kids)
    (valid : t.disk.db.Consistent) (key : Word) :
    VerkleTrees.get scheme t key.bytes = .ok ((StemTree.lookup (treeOf scheme.width run)
        (stemOf scheme.width key) (suffixOf scheme.width key)).map fun v => ofBytes v.bytes) ∧
      getProofTree scheme t key.bytes = .ok (((proofPoints scheme (treeOf scheme.width run)
        (stemOf scheme.width key)).drop 1).filterMap id) := by
  have held := kept.held
  rw [kept.tree]
  by_cases none : run = []
  · rw [if_pos none] at held
    have bare_kids : kids = bare := by
      have tree := kept.tree
      rw [none] at tree
      exact (Tree.inner.inj tree).symm
    obtain ⟨i, k, stem, _⟩ := stemOf_cons cuts key
    rw [VerkleTrees.get, getProofTree, splitKey_ok cuts key, bare_kids, stem]
    simp [rootNode, held.1, StemTree.lookup, proofPoints, bare, bind, Except.bind]
  · rw [if_neg none] at held
    exact ⟨get_lookup lawful cuts (Or.inr held) kept.rooted valid key,
      getProofTree_points lawful cuts (Or.inr held) kept.rooted valid key⟩

omit lawful cuts narrow in
theorem kept_rootCommitment {run : List (Word × Word)} {t : VerkleTree Point}
    {kids : Fin scheme.width → Trie scheme.width} (kept : Kept scheme run t kids) :
    rootCommitment t = if run = [] then none else nodePoint scheme (treeOf scheme.width run) := by
  have held := kept.held
  by_cases none : run = []
  · rw [if_pos none] at held ⊢
    rw [rootCommitment, rootNode, held.1]
    rfl
  · rw [if_neg none] at held ⊢
    obtain ⟨id, p, standing, _, _⟩ := held
    rw [kept.tree, nodePoint_inner, standing.point, rootCommitment, rootNode, standing.root,
      Option.map_some, Option.bind_some, standing.commitment]

omit cuts narrow in
theorem kept_opens {run : List (Word × Word)} {t : VerkleTree Point}
    {kids : Fin scheme.width → Trie scheme.width} (kept : Kept scheme run t kids)
    (valid : t.disk.db.Consistent) : ∃ u, openTree scheme t.disk = .ok u := by
  have held := kept.held
  by_cases none : run = []
  · rw [if_pos none] at held
    rcases held.2 with file | file <;>
    · rw [openTree, file]
      exact ⟨_, rfl⟩
  · rw [if_neg none] at held
    obtain ⟨u, opened, _⟩ := openTree_holding lawful (Or.inr held) valid
    exact ⟨u, opened⟩

omit cuts narrow in
/-- An old reference in the file of the root brings back what the tree was. -/
theorem kept_restores {run : List (Word × Word)} {t : VerkleTree Point}
    {kids : Fin scheme.width → Trie scheme.width} (kept : Kept scheme run t kids) (occupied : run ≠ [])
    {d : Disk} (grown : t.disk.db.Extends d.db) (valid : d.db.Consistent) :
    ∃ r old, t.rootRef = some r ∧ openTree scheme (d.apply (.writeRoot r)) = .ok old ∧
      Kept scheme run old kids := by
  have held := kept.held
  rw [if_neg occupied] at held
  obtain ⟨id, p, _, named, file⟩ := id held
  have moved := represents_moved held (d := d.apply (.writeRoot (pointRef scheme p).bytes)) grown
    (by rw [rootFile_writeRoot, file])
  obtain ⟨old, opened, _⟩ := openTree_holding lawful (Or.inr moved) valid
  refine ⟨_, old, named, opened, kept.tree, kept.rooted, ?_⟩
  rw [if_neg occupied]
  exact represents_reopens lawful moved valid opened

end Keys

/- The tree over KZG commitments. -/
section Sessions
variable {width : Nat} (supported : width = 16 ∨ width = 256) (curve : Curve Point2D G1 G2 FQ12)
  (logFloor : Nat → Nat) (sha256 : Bytes → Bytes) {zlib : Zlib} (lossless : zlib.Lossless)
  {secret : Nat} {setup : SetupObject G1 G2}
  (made : verkleKzgSetup curve secret width = .ok setup)
include supported lossless made

theorem plain_ready : ∃ bits,
    ∃ (_ : NeZero (plainScheme curve logFloor sha256 zlib setup).width),
      Lawful (plainScheme curve logFloor sha256 zlib setup) ∧
      Aligned (plainScheme curve logFloor sha256 zlib setup).width bits ∧
      (plainScheme curve logFloor sha256 zlib setup).width ≤ 256 := by
  obtain ⟨k, w, bits, _, ready⟩ := setup_ready supported made
  have positive := width_neZero (plainBackend curve logFloor sha256 zlib) ready
  have faithful : Faithful (plainBackend curve logFloor sha256 zlib).format :=
    plainFormat_faithful sha256 lossless
  have narrow : (kzgScheme (plainBackend curve logFloor sha256 zlib) setup).width ≤ 256 :=
    ready_narrow ready
  exact ⟨bits, positive, ready_lawful faithful ready, ready.aligned, narrow⟩

/-- Whatever the order of inserts, restarts and stops, a new process can be started
    and every key reads as its last insert that was not lost. -/
theorem sessions_keep {s : State Point2D}
    (session : Session (treeKeeper (plainScheme curve logFloor sha256 zlib setup)) s)
    (valid : s.2.disk.db.Consistent) :
    (∃ u, openTree (plainScheme curve logFloor sha256 zlib setup) s.2.disk = .ok u) ∧
      ∀ key : Word, VerkleTrees.get (plainScheme curve logFloor sha256 zlib setup) s.2 key.bytes =
        .ok ((lastInserted s.1 key).map fun v => ofBytes v.bytes) := by
  obtain ⟨bits, positive, lawful, aligned, narrow⟩ :=
    plain_ready supported curve logFloor sha256 lossless made
  obtain ⟨kids, kept⟩ := session_kept lawful aligned.toCuts narrow session valid
  refine ⟨kept_opens lawful kept valid, fun key => ?_⟩
  rw [(kept_answers lawful aligned.toCuts kept valid key).1, treeOf_lookup aligned]

/-- Sessions that end in the same map have the same root and the same proofs. -/
theorem sessions_agree {s u : State Point2D}
    (session : Session (treeKeeper (plainScheme curve logFloor sha256 zlib setup)) s)
    (session' : Session (treeKeeper (plainScheme curve logFloor sha256 zlib setup)) u)
    (valid : s.2.disk.db.Consistent) (valid' : u.2.disk.db.Consistent)
    (same : ∀ key, lastInserted s.1 key = lastInserted u.1 key) :
    rootCommitment s.2 = rootCommitment u.2 ∧ ∀ key : Word,
      getProofTree (plainScheme curve logFloor sha256 zlib setup) s.2 key.bytes =
        getProofTree (plainScheme curve logFloor sha256 zlib setup) u.2 key.bytes := by
  obtain ⟨bits, positive, lawful, aligned, narrow⟩ :=
    plain_ready supported curve logFloor sha256 lossless made
  obtain ⟨kids, kept⟩ := session_kept lawful aligned.toCuts narrow session valid
  obtain ⟨kids', kept'⟩ := session_kept lawful aligned.toCuts narrow session' valid'
  have trees := treeOf_canonical aligned same
  have none : s.1 = [] ↔ u.1 = [] := by
    constructor
    · intro empty
      exact lastInserted_none fun key => by rw [← same, empty]; rfl
    · intro empty
      exact lastInserted_none fun key => by rw [same, empty]; rfl
  refine ⟨?_, fun key => ?_⟩
  · rw [kept_rootCommitment kept, kept_rootCommitment kept', trees]
    simp only [none]
  · rw [(kept_answers lawful aligned.toCuts kept valid key).2,
      (kept_answers lawful aligned.toCuts kept' valid' key).2, trees]

/-- Every root a session ever had can be brought back, whatever came later. -/
theorem old_roots_restore {s u : State Point2D}
    (session : Session (treeKeeper (plainScheme curve logFloor sha256 zlib setup)) s) (occupied : s.1 ≠ [])
    (later : Later (treeKeeper (plainScheme curve logFloor sha256 zlib setup)) s u)
    (valid : u.2.disk.db.Consistent) :
    ∃ r old, s.2.rootRef = some r ∧
      openTree (plainScheme curve logFloor sha256 zlib setup) (u.2.disk.apply (.writeRoot r)) =
        .ok old ∧
      rootCommitment old = rootCommitment s.2 ∧ ∀ key : Word,
        VerkleTrees.get (plainScheme curve logFloor sha256 zlib setup) old key.bytes =
          VerkleTrees.get (plainScheme curve logFloor sha256 zlib setup) s.2 key.bytes ∧
        getProofTree (plainScheme curve logFloor sha256 zlib setup) old key.bytes =
          getProofTree (plainScheme curve logFloor sha256 zlib setup) s.2 key.bytes := by
  obtain ⟨bits, positive, lawful, aligned, narrow⟩ :=
    plain_ready supported curve logFloor sha256 lossless made
  have grown := later_grows later
  have earlier := consistent_earlier grown valid
  obtain ⟨kids, kept⟩ := session_kept lawful aligned.toCuts narrow session earlier
  obtain ⟨r, old, named, opened, kept'⟩ := kept_restores lawful kept occupied grown valid
  have valid' : old.disk.db.Consistent := by
    rw [openTree_disk opened]
    exact valid
  refine ⟨r, old, named, opened, ?_, fun key => ?_⟩
  · rw [kept_rootCommitment kept, kept_rootCommitment kept']
  · have now := kept_answers lawful aligned.toCuts kept earlier key
    have then' := kept_answers lawful aligned.toCuts kept' valid' key
    exact ⟨then'.1.trans now.1.symm, then'.2.trans now.2.symm⟩

omit supported made in
theorem kept_grown {k bits : Nat} {w : ZMod CURVE_ORDER} (ready : Ready setup k w bits)
    [NeZero (plainScheme curve logFloor sha256 zlib setup).width] {run : List (Word × Word)}
    {t : VerkleTree Point2D} {kids : Fin (plainScheme curve logFloor sha256 zlib setup).width →
      Trie (plainScheme curve logFloor sha256 zlib setup).width}
    (kept : Kept (plainScheme curve logFloor sha256 zlib setup) run t kids) (occupied : run ≠ [])
    (valid : t.disk.db.Consistent) :
    Grown (plainBackend curve logFloor sha256 zlib) setup k w bits t kids := by
  have held := kept.held
  rw [if_neg occupied] at held
  exact ⟨plainFormat_faithful sha256 lossless, ready, held, kept.rooted, valid⟩

/-- A client that knows an old root can be served forever: the tree opened at that root
    gives proofs of all that was under it, and the verifier accepts them. -/
theorem old_roots_served [DecidableEq FQ12] (logs : Logarithms curve (ZMod CURVE_ORDER))
    (exact : logs.Lossless) {s u : State Point2D}
    (session : Session (treeKeeper (plainScheme curve logFloor sha256 zlib setup)) s)
    (occupied : s.1 ≠ [])
    (later : Later (treeKeeper (plainScheme curve logFloor sha256 zlib setup)) s u)
    (valid : u.2.disk.db.Consistent) :
    ∃ r old root, s.2.rootRef = some r ∧ rootCommitment s.2 = some root ∧
      openTree (plainScheme curve logFloor sha256 zlib setup) (u.2.disk.apply (.writeRoot r)) =
        .ok old ∧
      ∀ entries : List (Word × Word), (∀ e ∈ entries, lastInserted s.1 e.1 = some e.2) →
        (∀ e ∈ entries, ofBytes e.2.bytes ≤ CURVE_ORDER) → ∃ proof,
          VerkleProof.generateProof (plainBackend curve logFloor sha256 zlib) setup old
            (entries.map fun e => e.1.bytes) = .ok proof ∧
          VerkleVerification.verifyProof (plainBackend curve logFloor sha256 zlib) setup
            (entries.map fun e => e.2.bytes) (entries.map fun e => e.1.bytes) root proof =
              .ok true := by
  obtain ⟨k, w, bits, standard, ready⟩ := setup_ready supported made
  have positive := width_neZero (plainBackend curve logFloor sha256 zlib) ready
  have positive' : NeZero (plainScheme curve logFloor sha256 zlib setup).width := positive
  have faithful : Faithful (plainBackend curve logFloor sha256 zlib).format :=
    plainFormat_faithful sha256 lossless
  have lawful : Lawful (plainScheme curve logFloor sha256 zlib setup) := ready_lawful faithful ready
  have aligned : Aligned (plainScheme curve logFloor sha256 zlib setup).width bits := ready.aligned
  have grown := later_grows later
  have earlier := consistent_earlier grown valid
  obtain ⟨kids, kept⟩ := session_kept lawful aligned.toCuts (ready_narrow ready) session earlier
  obtain ⟨r, old, named, opened, kept'⟩ := kept_restores lawful kept occupied grown valid
  have valid' : old.disk.db.Consistent := by
    rw [openTree_disk opened]
    exact valid
  have whole := kept_grown curve logFloor sha256 lossless ready kept' occupied valid'
  have answers (key : Word) :
      stored (plainBackend curve logFloor sha256 zlib) setup kids key = lastInserted s.1 key := by
    have found := treeOf_lookup aligned s.1 key
    rwa [kept'.tree] at found
  have point := kept_rootCommitment kept
  rw [if_neg occupied, kept.tree] at point
  obtain ⟨p, _, _, there, _⟩ := aggregate_ok whole [] (by simp)
  refine ⟨r, old, p, named, point.trans there, opened, fun entries inserted bounded => ?_⟩
  let value (key : Word) := (lastInserted s.1 key).getD key
  have known (e : Word × Word) (member : e ∈ entries) : value e.1 = e.2 := by
    simp only [value, inserted e member, Option.getD_some]
  obtain ⟨p', proof, there', generated, accepted⟩ := proof_accepted (standard_logs logs standard)
    exact whole (entries.map Prod.fst) value (by
      intro key member
      obtain ⟨e, inside, rfl⟩ := List.mem_map.mp member
      rw [answers, known e inside, inserted e inside]) (by
      intro key member
      obtain ⟨e, inside, rfl⟩ := List.mem_map.mp member
      rw [known e inside]
      exact bounded e inside)
  have claimed : (entries.map Prod.fst).map (fun key => (value key).bytes) =
      entries.map fun e => e.2.bytes := by
    rw [List.map_map]
    apply List.map_congr_left
    intro e inside
    rw [Function.comp_apply, known e inside]
  rw [claimed, List.map_map] at accepted
  rw [List.map_map] at generated
  cases there.symm.trans there'
  exact ⟨proof, generated, accepted⟩

end Sessions

/- Two keys, and a stop during the second insert before the file of the root is
   touched. -/
section Sample

abbrev forkScheme : Scheme Point2D :=
  plainScheme forkCurve sampleLogFloor forkSha256 forkZlib forkSetup

theorem forkScheme_sum : forkScheme = sumScheme forkCurve sampleLogFloor forkSetup forkSha256 forkZlib :=
  plainScheme_sum _ _ forkCurve_residual _ _

def afterInsert (scheme : Scheme Point) (e : Word × Word) (t : VerkleTree Point) :
    VerkleTree Point :=
  (VerkleTrees.insert scheme e.1.bytes e.2.bytes t).2

theorem keeper_afterInsert (scheme : Scheme Point) (e : Word × Word) (t : VerkleTree Point) :
    (treeKeeper scheme).insert e t = afterInsert scheme e t := rfl

@[irreducible] def firstTree : VerkleTree Point2D :=
  afterInsert forkScheme (sampleKey, sampleValue) emptyTree

@[irreducible] def secondTree : VerkleTree Point2D :=
  afterInsert forkScheme (forkKey, sampleValue) firstTree

@[irreducible] def haltedDisk : Disk := ⟨secondTree.disk.effects.drop 2⟩

theorem haltedDisk_facts :
    StopsAt ((treeKeeper forkScheme).disk firstTree) ((treeKeeper forkScheme).disk secondTree)
      haltedDisk ∧
    keptRun [(sampleKey, sampleValue)] (forkKey, sampleValue)
      ((treeKeeper forkScheme).disk secondTree) haltedDisk = [(sampleKey, sampleValue)] ∧
    secondTree.disk.db.Consistent ∧ (openTree forkScheme haltedDisk).toBool = true := by
  unfold StopsAt haltedDisk secondTree firstTree
  rw [forkScheme_sum]
  decide +kernel

theorem firstTree_inserted :
    (treeKeeper forkScheme).insert (sampleKey, sampleValue) emptyTree = firstTree := by
  rw [keeper_afterInsert]
  unfold firstTree
  rfl

theorem secondTree_inserted :
    (treeKeeper forkScheme).insert (forkKey, sampleValue) firstTree = secondTree := by
  rw [keeper_afterInsert]
  unfold secondTree
  rfl

theorem firstTree_valid : firstTree.disk.db.Consistent := by
  have grows := (treeKeeper forkScheme).insert_grows (forkKey, sampleValue) firstTree
  rw [secondTree_inserted, keeper_disk, keeper_disk] at grows
  exact consistent_earlier grows haltedDisk_facts.2.2.1

theorem firstTree_session : Session (treeKeeper forkScheme) ([(sampleKey, sampleValue)], firstTree) := by
  have step := @Step.insert _ _ (treeKeeper forkScheme) [] emptyTree (sampleKey, sampleValue)
  rw [firstTree_inserted] at step
  exact .single step

theorem stopped_session : ∃ u, openTree forkScheme haltedDisk = .ok u ∧
    Session (treeKeeper forkScheme) ([(sampleKey, sampleValue)], u) ∧ u.disk.db.Consistent := by
  obtain ⟨stops, kept, valid, opens⟩ := haltedDisk_facts
  cases opened : openTree forkScheme haltedDisk with
  | error e =>
    rw [opened] at opens
    cases opens
  | ok u =>
    have valid' : u.disk.db.Consistent := by
      rw [openTree_disk opened]
      rw [keeper_disk, keeper_disk] at stops
      exact consistent_earlier (suffix_db stops.2) valid
    rw [← secondTree_inserted] at stops kept
    have step := @Step.stop _ _ (treeKeeper forkScheme) [(sampleKey, sampleValue)] _ u
      (forkKey, sampleValue) _ stops opened
    rw [kept] at step
    exact ⟨u, rfl, firstTree_session.tail step, valid'⟩

theorem sessions_keep_sample : ∃ u, openTree forkScheme haltedDisk = .ok u ∧
    VerkleTrees.get forkScheme u sampleKey.bytes = .ok (some 7) ∧
    VerkleTrees.get forkScheme u forkKey.bytes = .ok none := by
  obtain ⟨u, opened, session, valid⟩ := stopped_session
  obtain ⟨_, answers⟩ := sessions_keep (Or.inl rfl) forkCurve sampleLogFloor forkSha256
    forkZlib_lossless forkSetup_made session valid
  have present : ((lastInserted [(sampleKey, sampleValue)] sampleKey).map fun v =>
      ofBytes v.bytes) = some 7 := by decide
  have absent : ((lastInserted [(sampleKey, sampleValue)] forkKey).map fun v =>
      ofBytes v.bytes) = none := by decide
  exact ⟨u, opened, present ▸ answers sampleKey, absent ▸ answers forkKey⟩

theorem sessions_agree_sample : ∃ u, openTree forkScheme haltedDisk = .ok u ∧
    rootCommitment u = rootCommitment firstTree ∧
    getProofTree forkScheme u sampleKey.bytes = getProofTree forkScheme firstTree sampleKey.bytes := by
  obtain ⟨u, opened, session, valid⟩ := stopped_session
  obtain ⟨root, proofs⟩ := sessions_agree (Or.inl rfl) forkCurve sampleLogFloor forkSha256
    forkZlib_lossless forkSetup_made session firstTree_session valid firstTree_valid fun _ => rfl
  exact ⟨u, opened, root, proofs sampleKey⟩

theorem secondTree_step : Later (treeKeeper forkScheme) ([(sampleKey, sampleValue)], firstTree)
    ([(sampleKey, sampleValue), (forkKey, sampleValue)], secondTree) := by
  have step := @Step.insert _ _ (treeKeeper forkScheme) [(sampleKey, sampleValue)] firstTree
    (forkKey, sampleValue)
  rw [secondTree_inserted] at step
  exact .single step

theorem old_roots_restore_sample : ∃ r old, firstTree.rootRef = some r ∧
    openTree forkScheme (secondTree.disk.apply (.writeRoot r)) = .ok old ∧
    rootCommitment old = rootCommitment firstTree := by
  obtain ⟨r, old, named, opened, root, _⟩ := old_roots_restore (Or.inl rfl) forkCurve sampleLogFloor
    forkSha256 forkZlib_lossless forkSetup_made firstTree_session (List.cons_ne_nil _ _)
    secondTree_step haltedDisk_facts.2.2.1
  exact ⟨r, old, named, opened, root⟩

theorem old_roots_served_sample : ∃ r old root proof, firstTree.rootRef = some r ∧
    openTree forkScheme (secondTree.disk.apply (.writeRoot r)) = .ok old ∧
    VerkleVerification.verifyProof (plainBackend forkCurve sampleLogFloor forkSha256 forkZlib)
      forkSetup [sampleValue.bytes] [sampleKey.bytes] root proof = .ok true := by
  obtain ⟨r, old, root, named, _, opened, served⟩ := old_roots_served (Or.inl rfl) forkCurve
    sampleLogFloor forkSha256 forkZlib_lossless forkSetup_made forkLogs forkLogs_lossless
    firstTree_session (List.cons_ne_nil _ _) secondTree_step haltedDisk_facts.2.2.1
  have present : ∀ e ∈ [(sampleKey, sampleValue)],
      lastInserted [(sampleKey, sampleValue)] e.1 = some e.2 := by decide
  have bounds : ∀ e ∈ [(sampleKey, sampleValue)], ofBytes e.2.bytes ≤ CURVE_ORDER := by decide
  obtain ⟨proof, _, accepted⟩ := served _ present bounds
  exact ⟨r, old, root, proof, named, opened, accepted⟩

end Sample

end VerkleSessions
