import StatelessEthereum.MerkleForm

/- What it means that an abstract trie is on disk: every node of it is in the
   database under its reference. Storing nodes only ever adds to that. -/
namespace MerkleStorage
open PythonError BigEndian NibblePaths MerkleNodes MerkleForms StateEffect PutLog DiskLog CompactTrie
open MerkleTrees hiding insert

abbrev NibbleTrie := Trie Nat Bytes

/- Effects. -/
section Moves
variable {scheme : Scheme} {R : MerklePatriciaTrie → MerklePatriciaTrie → Prop}
variable (refl : ∀ s, R s s) (trans : ∀ s t u, R s t → R t u → R s u)
variable (store : ∀ node, Along R (storeNode scheme node))
include refl trans store

theorem along_createBranchLeaf (path : NibblePath) (value : PyObj) (branches : List PyObj) :
    Along R (createBranchLeaf scheme path value branches) := by
  unfold createBranchLeaf
  split
  · exact along_bind trans (along_lift refl _) fun _ => along_bind trans (store _) fun _ =>
      along_lift refl _
  · exact along_pure refl _

theorem along_createBranchExtension (path : NibblePath) (nextRef : PyObj)
    (branches : List PyObj) : Along R (createBranchExtension scheme path nextRef branches) := by
  unfold createBranchExtension
  split
  · exact along_raise refl _
  · split
    · exact along_bind trans (along_lift refl _) fun _ => along_lift refl _
    · exact along_bind trans (along_lift refl _) fun _ => along_bind trans (store _) fun _ =>
        along_lift refl _

theorem along_createBranchNode (pathA : NibblePath) (valueA : PyObj) (pathB : NibblePath)
    (valueB : PyObj) : Along R (createBranchNode scheme pathA valueA pathB valueB) := by
  unfold createBranchNode
  split
  · exact along_raise refl _
  · exact along_bind trans (along_createBranchLeaf refl trans store _ _ _) fun _ =>
      along_bind trans (along_createBranchLeaf refl trans store _ _ _) fun _ => store _

omit trans in
theorem along_storeAbove (commonPrefix : NibblePath) (branchRef : Bytes) :
    Along R (storeAbove scheme commonPrefix branchRef) := by
  unfold storeAbove
  split
  · exact store _
  · exact along_pure refl _

theorem along_updateLeaf (nodePath : NibblePath) (data : PyObj) (path : NibblePath)
    (value : Bytes) : Along R (updateLeaf scheme nodePath data path value) := by
  unfold updateLeaf
  split
  · exact store _
  · exact along_bind trans (along_createBranchNode refl trans store _ _ _ _) fun _ =>
      along_storeAbove refl store _ _

theorem along_updateExtension {next : PyObj → NibblePath → TrieEffect Bytes}
    (below : ∀ ref path, Along R (next ref path)) (nodePath : NibblePath) (nextRef : PyObj)
    (path : NibblePath) (value : Bytes) :
    Along R (updateExtension scheme next nodePath nextRef path value) := by
  unfold updateExtension
  split
  · exact along_bind trans (below _ _) fun _ => store _
  · exact along_bind trans (along_createBranchLeaf refl trans store _ _ _) fun _ =>
      along_bind trans (along_createBranchExtension refl trans store _ _ _) fun _ =>
        along_bind trans (store _) fun _ => along_storeAbove refl store _ _

theorem along_updateBranch {next : PyObj → NibblePath → TrieEffect Bytes}
    (below : ∀ ref path, Along R (next ref path)) (branches : List PyObj) (data : PyObj)
    (path : NibblePath) (value : Bytes) :
    Along R (updateBranch scheme next branches data path value) := by
  unfold updateBranch
  split
  · exact store _
  · exact along_bind trans (along_lift refl _) fun _ =>
      along_bind trans (along_lift refl _) fun _ => along_bind trans (below _ _) fun _ => store _

/-- All that `_update` does to the state it does by storing nodes. -/
theorem along_update (depth : Nat) (nodeRef : PyObj) (path : NibblePath) (value : Bytes) :
    Along R (update scheme depth nodeRef path value) := by
  induction depth generalizing nodeRef path with
  | zero => exact along_raise refl _
  | succ depth ih =>
    unfold update
    split
    · exact store _
    · refine along_bind trans (along_reads refl _) fun node => ?_
      cases node with
      | leaf nodePath data => exact along_updateLeaf refl trans store _ _ _ _
      | extension nodePath nextRef => exact along_updateExtension refl trans store ih _ _ _ _
      | branch branches data => exact along_updateBranch refl trans store ih _ _ _ _

end Moves

structure Puts (s t : MerklePatriciaTrie) : Prop where
  grows : s.disk.db.Extends t.disk.db
  rootFile : t.disk.rootFile = s.disk.rootFile
  rootRef : t.rootRef = s.rootRef
  rootValue : t.rootValue = s.rootValue

theorem puts_refl (s : MerklePatriciaTrie) : Puts s s := ⟨extends_refl _, rfl, rfl, rfl⟩

theorem puts_trans (s t u : MerklePatriciaTrie) (first : Puts s t) (next : Puts t u) :
    Puts s u :=
  ⟨extends_trans first.grows next.grows, next.rootFile.trans first.rootFile,
    next.rootRef.trans first.rootRef, next.rootValue.trans first.rootValue⟩

theorem puts_write (s : MerklePatriciaTrie) (r e : Bytes) :
    Puts s { s with disk := s.disk.apply (.put r e) } :=
  ⟨by rw [db_put]; exact extends_put _ _ _, rootFile_put _ _ _, rfl, rfl⟩

theorem storeNode_moves {scheme : Scheme} {R : MerklePatriciaTrie → MerklePatriciaTrie → Prop}
    (refl : ∀ s, R s s)
    (put : ∀ node r e, scheme.reference node = .ok r → scheme.encode node = .ok e →
      r.length = 32 → Along R (write (.put r e))) (node : Node) :
    Along R (storeNode scheme node) := by
  intro s
  cases referred : scheme.reference node with
  | error e => simpa [storeNode, referred, bind_run] using refl s
  | ok r =>
    cases encoded : scheme.encode node with
    | error e => simpa [storeNode, referred, encoded, bind_run] using refl s
    | ok e =>
      by_cases whole : r.length = 32
      · have moved := put node r e referred encoded whole s
        simpa [storeNode, referred, encoded, whole, bind_run, write] using moved
      · simpa [storeNode, referred, encoded, whole, bind_run] using refl s

theorem storeNode_puts (scheme : Scheme) (node : Node) : Along Puts (storeNode scheme node) :=
  storeNode_moves puts_refl (fun _ r e _ _ _ s => puts_write s r e) node

theorem update_puts (scheme : Scheme) (depth : Nat) (nodeRef : PyObj) (path : NibblePath)
    (value : Bytes) : Along Puts (update scheme depth nodeRef path value) :=
  along_update puts_refl puts_trans (storeNode_puts scheme) depth nodeRef path value

/- The abstract trie. -/
section Tries
variable {scheme : Scheme} {limits : Limits} (codec : Codec scheme limits)

def reference (form : Form) : Bytes := scheme.hash (codec.layout form)

/-- The reference of a trie; an empty one has the empty reference. -/
def refOf : NibbleTrie → Bytes
  | .empty => []
  | .leaf p v => reference codec (.leaf p v)
  | .ext p t => reference codec (.ext p (refOf t))
  | .branch cs v =>
    reference codec (.branch ((List.range 16).map fun i => refOf (cs i)) (v.getD []))

/-- What the top node of an occupied trie says. -/
def formOf : NibbleTrie → Form
  | .empty => .leaf [] []
  | .leaf p v => .leaf p v
  | .ext p t => .ext p (refOf codec t)
  | .branch cs v => .branch ((List.range 16).map fun i => refOf codec (cs i)) (v.getD [])

inductive Child : NibbleTrie → NibbleTrie → Prop where
  | ext {p t} : Child t (.ext p t)
  | slot {cs v} (i : Nat) : Child (cs i) (.branch cs v)

theorem child_slot {u : NibbleTrie} {cs : Nat → NibbleTrie} {v : Option Bytes}
    (child : Child u (.branch cs v)) : ∃ i, u = cs i := by
  cases child with
  | slot i => exact ⟨i, rfl⟩

/-- Every node of the trie was put in the database under its reference. -/
inductive Written (db : Store Bytes Bytes) : NibbleTrie → Prop where
  | empty : Written db .empty
  | node {t} : t ≠ .empty → (refOf codec t, codec.layout (formOf codec t)) ∈ db.puts →
      (∀ u, Child u t → Written db u) → Written db t

/-- Paths, values and slots are ones the format is meant for. -/
def Sized (limits : Limits) : NibbleTrie → Prop
  | .empty => True
  | .leaf p v => limits.PathOk p ∧ limits.ValueOk v
  | .ext p t => limits.PathOk p ∧ Sized limits t
  | .branch cs v =>
    (∀ i, Sized limits (cs i)) ∧ (∀ i, 16 ≤ i → cs i = .empty) ∧
      ∀ w, v = some w → limits.ValueOk w

structure Valid (limits : Limits) (t : NibbleTrie) : Prop where
  canonical : Canonical t
  sized : Sized limits t

structure Admissible (limits : Limits) (db : Store Bytes Bytes) : Prop where
  consistent : db.Consistent
  references : ∀ p ∈ db.puts, limits.RefOk p.1

def Good (limits : Limits) (s : MerklePatriciaTrie) : Prop := Admissible limits s.disk.db

theorem admissible_earlier {limits : Limits} {db later : Store Bytes Bytes}
    (grows : db.Extends later) (good : Admissible limits later) : Admissible limits db :=
  ⟨consistent_earlier grows good.consistent, fun p member =>
    good.references p (extends_member grows member)⟩

theorem good_back (limits : Limits) (s t : MerklePatriciaTrie) (moved : Puts s t)
    (good : Good limits t) : Good limits s := admissible_earlier moved.grows good

variable {codec}

theorem refOf_occupied {t : NibbleTrie} (occupied : t ≠ .empty) :
    refOf codec t = reference codec (formOf codec t) := by
  cases t with
  | empty => exact absurd rfl occupied
  | _ => rfl

variable (codec) in
theorem refOf_length {t : NibbleTrie} (occupied : t ≠ .empty) : (refOf codec t).length = 32 := by
  rw [refOf_occupied occupied]
  exact codec.hash_size _

theorem refOf_eq_nil_iff (t : NibbleTrie) : refOf codec t = [] ↔ t = .empty := by
  constructor
  · intro none
    by_contra occupied
    have size := refOf_length codec occupied
    rw [none] at size
    simp at size
  · rintro rfl
    rfl

theorem written_member {db : Store Bytes Bytes} {t : NibbleTrie} (written : Written codec db t)
    (occupied : t ≠ .empty) : (refOf codec t, codec.layout (formOf codec t)) ∈ db.puts := by
  cases written with
  | empty => exact absurd rfl occupied
  | node _ member _ => exact member

theorem written_child {db : Store Bytes Bytes} {t u : NibbleTrie} (written : Written codec db t)
    (child : Child u t) : Written codec db u := by
  cases written with
  | empty => cases child
  | node _ _ children => exact children u child

theorem written_later {db later : Store Bytes Bytes} (grows : db.Extends later) {t : NibbleTrie}
    (written : Written codec db t) : Written codec later t := by
  induction written with
  | empty => exact .empty
  | node occupied member _ ih => exact .node occupied (extends_member grows member) ih

theorem written_refOk {db : Store Bytes Bytes} (good : Admissible limits db) {t : NibbleTrie}
    (written : Written codec db t) (occupied : t ≠ .empty) : limits.RefOk (refOf codec t) :=
  good.references _ (written_member written occupied)

theorem valid_child {t u : NibbleTrie} (valid : Valid limits t) (child : Child u t) :
    Valid limits u := by
  cases child with
  | ext => exact ⟨valid.canonical.2.2, valid.sized.2⟩
  | slot i => exact ⟨valid.canonical.1 i, valid.sized.1 i⟩

theorem slot_inside {cs : Nat → NibbleTrie} {v : Option Bytes}
    (valid : Valid limits (.branch cs v)) {i : Nat} (held : cs i ≠ .empty) : i < 16 := by
  by_contra outside
  exact held (valid.sized.2.1 i (by omega))

theorem occupied_slot {cs : Nat → NibbleTrie} {v : Option Bytes}
    (valid : Valid limits (.branch cs v)) : ∃ i < 16, cs i ≠ .empty := by
  rcases valid.canonical.2 with ⟨i, _, _, held, _⟩ | ⟨_, i, held⟩
  · exact ⟨i, slot_inside valid held, held⟩
  · exact ⟨i, slot_inside valid held, held⟩

theorem below_ext {p : List Nat} {t : NibbleTrie} (valid : Valid limits (.ext p t)) :
    t ≠ .empty := by
  rintro rfl
  exact valid.canonical.2.1

/-- An extension that a path runs through covers some of it. -/
theorem ext_covers {nodePath path : NibblePath} {t : NibbleTrie}
    (valid : Valid limits (.ext nodePath.remaining t))
    (covered : nodePath.remaining <+: path.remaining) :
    nodePath.len ≠ 0 ∧ nodePath.len ≤ path.len := by
  have fits := covered.length_le
  rw [NibblePath.remaining_length, NibblePath.remaining_length] at fits
  exact ⟨fun none => valid.canonical.1 ((NibblePath.len_eq_zero_iff nodePath).mp none), fits⟩

theorem storable_formOf {t : NibbleTrie} (valid : Valid limits t) (occupied : t ≠ .empty)
    (children : ∀ u, Child u t → u ≠ .empty → limits.RefOk (refOf codec u)) :
    Storable limits (formOf codec t) := by
  cases t with
  | empty => exact absurd rfl occupied
  | leaf p v => exact valid.sized
  | ext p t =>
    exact ⟨valid.sized.1, children t .ext (below_ext valid)⟩
  | branch cs v =>
    refine ⟨by simp, ?_, ?_, ?_⟩
    · intro r member
      obtain ⟨i, _, rfl⟩ := List.mem_map.mp member
      by_cases held : cs i = .empty
      · exact Or.inl ((refOf_eq_nil_iff _).mpr held)
      · exact Or.inr (children _ (.slot i) held)
    · obtain ⟨i, inside, held⟩ := occupied_slot valid
      exact ⟨_, List.mem_map.mpr ⟨i, List.mem_range.mpr inside, rfl⟩, children _ (.slot i) held⟩
    · cases v with
      | none => exact Or.inl rfl
      | some w => exact Or.inr (valid.sized.2.2 w rfl)

/- Inserting keeps the limits of the format. -/

theorem attach_sized {cs : Nat → NibbleTrie} {p : List Nat} {grow : List Nat → NibbleTrie}
    (slots : ∀ i, Sized limits (cs i)) (grown : ∀ i rest, p = i :: rest → Sized limits (grow rest))
    (i : Nat) : Sized limits (attach cs p grow i) := by
  cases p with
  | nil => exact slots i
  | cons j rest =>
    by_cases same : i = j
    · subst same; simpa [attach] using grown i rest rfl
    · simpa [attach, same] using slots i

theorem attach_inside {cs : Nat → NibbleTrie} {p : List Nat} {grow : List Nat → NibbleTrie}
    (valid : limits.PathOk p) (inside : ∀ i, 16 ≤ i → cs i = .empty) (i : Nat) (large : 16 ≤ i) :
    attach cs p grow i = .empty := by
  cases p with
  | nil => exact inside i large
  | cons j rest =>
    have digit := limits.digits _ valid j (by simp)
    have other : i ≠ j := by omega
    simpa [attach, other] using inside i large

theorem fork_sized {a b : List Nat} {v : Bytes} {w : Option Bytes} {grow : List Nat → NibbleTrie}
    (ha : limits.PathOk a) (hb : limits.PathOk b) (hv : limits.ValueOk v)
    (hw : ∀ x, w = some x → limits.ValueOk x)
    (grown : ∀ i rest, b = i :: rest → Sized limits (grow rest)) :
    Sized limits (fork a v b w grow) := by
  refine ⟨attach_sized (attach_sized (fun _ => trivial) ?_) grown, ?_, ?_⟩
  · rintro i rest rfl
    exact ⟨limits.infixes _ _ (List.suffix_cons i rest).isInfix ha, hv⟩
  · exact attach_inside hb (attach_inside ha fun _ _ => rfl)
  · intro x held
    split at held
    · cases held; exact hv
    · split at held
      · exact hw x held
      · simp at held

theorem place_sized {p : List Nat} {t : NibbleTrie} (path : limits.PathOk p)
    (sized : Sized limits t) : Sized limits (place p t) := by
  unfold place
  split
  · exact sized
  · exact ⟨path, sized⟩

theorem insert_sized {t : NibbleTrie} (sized : Sized limits t) {k : List Nat} {v : Bytes}
    (path : limits.PathOk k) (value : limits.ValueOk v) : Sized limits (insert t k v) := by
  have dropped (n : Nat) {q : List Nat} (valid : limits.PathOk q) : limits.PathOk (q.drop n) :=
    limits.infixes _ _ (List.drop_suffix n q).isInfix valid
  have shared (q : List Nat) : limits.PathOk (common k q) :=
    limits.infixes _ _ (common_prefix_left k q).isInfix path
  have tail (q : List Nat) (i : Nat) (rest : List Nat) (valid : limits.PathOk q)
      (shape : q = i :: rest) : limits.PathOk rest :=
    limits.infixes _ _ (shape ▸ (List.suffix_cons i rest).isInfix) valid
  induction t generalizing k with
  | empty => exact ⟨path, value⟩
  | leaf p w =>
    simp only [CompactTrie.insert]
    split
    · exact ⟨sized.1, value⟩
    · refine place_sized (shared p) (fork_sized (dropped _ path) (dropped _ sized.1) value ?_ ?_)
      · intro x held
        cases held
        exact sized.2
      · intro i rest shape
        exact ⟨tail _ i rest (dropped _ sized.1) shape, sized.2⟩
  | ext p t ih =>
    simp only [CompactTrie.insert]
    split
    · exact ⟨sized.1, ih sized.2 (dropped _ path) fun q =>
        limits.infixes _ _ (common_prefix_left _ q).isInfix (dropped _ path)⟩
    · refine place_sized (shared p) (fork_sized (dropped _ path) (dropped _ sized.1) value ?_ ?_)
      · simp
      · intro i rest shape
        exact place_sized (tail _ i rest (dropped _ sized.1) shape) sized.2
  | branch cs w ih =>
    obtain ⟨slots, inside, held⟩ := sized
    cases k with
    | nil => exact ⟨slots, inside, fun x equal => by cases equal; exact value⟩
    | cons i k =>
      have rest := tail _ i k path rfl
      have digit := limits.digits _ path i (by simp)
      refine ⟨?_, ?_, held⟩
      · intro j
        by_cases same : j = i
        · subst same
          simpa using ih j (slots j) rest fun q =>
            limits.infixes _ _ (common_prefix_left _ q).isInfix rest
        · simpa [same] using slots j
      · intro j large
        have other : j ≠ i := by omega
        simpa [other] using inside j large

theorem insert_valid {t : NibbleTrie} (valid : Valid limits t) {k : List Nat} {v : Bytes}
    (path : limits.PathOk k) (value : limits.ValueOk v) : Valid limits (insert t k v) :=
  ⟨insert_canonical valid.canonical k v, insert_sized valid.sized path value⟩

/- Storing nodes. -/

variable (codec) in
theorem storeNode_trie {node : Node} {t : NibbleTrie} {s : MerklePatriciaTrie}
    (valid : Valid limits t) (occupied : t ≠ .empty) (shows : Shows node (formOf codec t))
    (children : ∀ u, Child u t → Written codec s.disk.db u) :
    Ensures (Good limits) (storeNode scheme node) s fun r s' =>
      r = refOf codec t ∧ Written codec s'.disk.db t := by
  intro good
  have grows := (storeNode_puts scheme node s).grows
  have before := admissible_earlier grows good
  have storable := storable_formOf valid occupied fun u child held =>
    written_refOk before (children u child) held
  obtain ⟨encoded, referred⟩ := codec.stores node _ shows storable
  have whole := codec.hash_size (codec.layout (formOf codec t))
  have run : storeNode scheme node s = (.ok (refOf codec t),
      { s with disk := s.disk.apply (.put (refOf codec t) (codec.layout (formOf codec t))) }) := by
    simp [storeNode, referred, encoded, whole, bind_run, write, refOf_occupied occupied, reference]
  rw [run] at grows ⊢
  refine ⟨_, rfl, rfl, .node occupied ?_ fun u child => written_later grows (children u child)⟩
  simp [Store.put]

end Tries

end MerkleStorage
