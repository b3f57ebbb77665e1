import StatelessEthereum.VerkleRuns

/- Inserts that raise. A stem with a digit of 256 or more cannot be committed to,
   and when that shows only the suffix node below it is on disk: the tree stays
   what it was. -/
namespace VerkleRefusal
open PythonError BigEndian StateEffect PutLog DiskLog ObjectHeap VerkleSerialization
open VerkleTrees hiding insert get
open StemTree hiding insert lookup
open VerkleStorage VerkleRefinement VerkleKey VerkleRuns
variable {Point V : Type} [Entry V] {scheme : Scheme Point}

/-- No commitment to a stem that does not fit into bytes. -/
def Refuses (scheme : Scheme Point) : Prop :=
  ∀ stem child, (∃ c ∈ stem, 256 ≤ c) → ∃ e, scheme.commitExtension stem child = .error e

/-- A step that leaves the root and its names alone as well. -/
structure Spares (changed : Nat → Prop) (t t' : VerkleTree Point) : Prop
    extends Keeps changed t t' where
  root : t'.root = t.root
  rootRef : t'.rootRef = t.rootRef
  rootFile : t'.disk.rootFile = t.disk.rootFile

theorem spares_refl (changed : Nat → Prop) (t : VerkleTree Point) : Spares changed t t :=
  ⟨keeps_refl changed t, rfl, rfl, rfl⟩

theorem spares_trans {changed : Nat → Prop} {t u v : VerkleTree Point}
    (first : Spares changed t u) (next : Spares changed u v) : Spares changed t v :=
  ⟨keeps_trans first.toKeeps next.toKeeps, next.root.trans first.root,
    next.rootRef.trans first.rootRef, next.rootFile.trans first.rootFile⟩

theorem spares_mono {few many : Nat → Prop} {t t' : VerkleTree Point} (spared : Spares few t t')
    (part : ∀ x, few x → many x) : Spares many t t' :=
  ⟨keeps_mono spared.toKeeps part, spared.root, spared.rootRef, spared.rootFile⟩

theorem spares_alloc (content : TreeNode Point) (t : VerkleTree Point) :
    Spares (fun _ => False) t (t.grow content) := ⟨keeps_alloc content t, rfl, rfl, rfl⟩

theorem spares_write (node : Nat) (content : TreeNode Point) (t : VerkleTree Point) :
    Spares (fun x => x = node) t (t.store node content) :=
  ⟨keeps_write node content t, rfl, rfl, rfl⟩

theorem spares_settled (scheme : Scheme Point) (t : VerkleTree Point) (node : Nat) (p : Point)
    (encoded : Bytes) : Spares (fun x => x = node) t (settled scheme t node p encoded) :=
  ⟨settled_keeps scheme t node p encoded, rfl, rfl, rfl⟩

/-- Changes to new objects are no changes to the old ones. -/
theorem spares_new {changed : Nat → Prop} {t u v : VerkleTree Point}
    (first : Spares (fun _ => False) t u) (next : Spares changed u v)
    (new : ∀ x, changed x → t.objects.size ≤ x) : Spares (fun _ => False) t v := by
  refine ⟨⟨?_, Nat.le_trans first.size next.size, extends_trans first.db next.db⟩,
    next.root.trans first.root, next.rootRef.trans first.rootRef,
    next.rootFile.trans first.rootFile⟩
  intro x held _
  have old : ¬ changed x := fun change => absurd (new x change) (Nat.not_le.mpr held)
  rw [next.objects x (Nat.lt_of_lt_of_le held first.size) old, first.objects x held id]

theorem wide_digit {width : Nat} {stem : List (Fin width)} (wide : ¬ Narrow stem) :
    ∃ c ∈ stem.map Fin.val, 256 ≤ c := by
  simp only [Narrow, not_forall, not_lt] at wide
  obtain ⟨c, member, large⟩ := wide
  exact ⟨c.val, List.mem_map_of_mem member, large⟩

theorem settle_refused (refuses : Refuses scheme) {t : VerkleTree Point} {frame : Frame}
    (typed : (t.objects.read frame.node).type = .extension) {stem : List (Fin scheme.width)}
    (wide : ¬ Narrow stem) (covers : (t.objects.read frame.node).stem = stem.map Fin.val) :
    ∃ e, settle scheme frame t = (.error e, t) := by
  obtain ⟨e, raised⟩ := refuses _ (t.objects.read frame.node).child (wide_digit wide)
  refine ⟨e, ?_⟩
  simp only [settle, bind_run, readNode_run, lift_run, commitNode, typed, covers, raised]

/-- What phase 1 leads to when the stem of the new group does not fit: phase 2
    raises, and no old object has changed. -/
def Refused (scheme : Scheme Point) (changed : Nat → Prop) (t : VerkleTree Point)
    (phase : VerkleEffect Point (List Frame)) : Prop :=
  ∃ stack t₁ e t₂, phase t = (.ok stack, t₁) ∧
    forEach (settle scheme) stack t₁ = (.error e, t₂) ∧ Spares changed t t₂

theorem refused_before {changed : Nat → Prop} {t u : VerkleTree Point}
    {phase whole : VerkleEffect Point (List Frame)} (first : Spares (fun _ => False) t u)
    (run : whole t = phase u) (refused : Refused scheme changed u phase)
    (new : ∀ x, changed x → t.objects.size ≤ x) : Refused scheme (fun _ => False) t whole := by
  obtain ⟨stack, t₁, e, t₂, done, raised, spared⟩ := refused
  exact ⟨stack, t₁, e, t₂, run.trans done, raised, spares_new first spared new⟩

theorem addGroup_refused (lawful : Lawful scheme) (refuses : Refuses scheme)
    (t : VerkleTree Point) (p j : Nat) {stem : List (Fin scheme.width)} (wide : ¬ Narrow stem)
    {x : Fin scheme.width} {v : V} (readable : Readable (childList (single x v)))
    (stack : List Frame) : Refused scheme (fun _ => False) t
      (addGroup scheme p j (stem.map Fin.val) x.val (Entry.bytes v) stack) := by
  have suffixObject := withGroup_suffix t stem x v
  have extObject := withGroup_extension t stem x v
  have first : Spares (fun _ => False) t (withGroup t stem x v) :=
    spares_trans (spares_alloc _ _) (spares_alloc _ _)
  obtain ⟨point, encoded, _, run, _⟩ := settle_array lawful
    ⟨some (t.objects.size + 1, .child), t.objects.size⟩ (t := withGroup t stem x v)
    (Or.inr ⟨rfl, rfl⟩) (by rw [suffixObject]; rfl)
    (show _ = childList (single x v) by rw [suffixObject]; rfl) readable
  let stored := settled scheme (withGroup t stem x v) t.objects.size point encoded
  let linked := stored.store (t.objects.size + 1)
    { newExtension stem with child := some (pointRef scheme point).bytes }
  have spared : Spares (fun x => x = t.objects.size) (withGroup t stem x v) stored :=
    spares_settled _ _ _ _ _
  have spared' : Spares (fun x => x = t.objects.size + 1) stored linked := spares_write _ _ _
  have held : t.objects.size + 1 < stored.objects.size :=
    Nat.lt_of_lt_of_le (by simp) spared.size
  have object := spared.objects (t.objects.size + 1) (by simp) (by omega)
  have link := link_child stored t.objects.size (t.objects.size + 1) (pointRef scheme point).bytes
  rw [object, extObject] at link
  have named : linked.objects.read (t.objects.size + 1) =
      { newExtension stem with child := some (pointRef scheme point).bytes } := store_same held _
  obtain ⟨e, raised⟩ : ∃ e, settle scheme ⟨some (p, .index j), t.objects.size + 1⟩ linked =
      (.error e, linked) :=
    settle_refused refuses (by rw [named]; rfl) wide (by rw [named]; rfl)
  refine ⟨_, _, e, linked, addGroup_run t p j stem x v stack, ?_, ?_⟩
  · rw [forEach_cons (run.trans link), forEach, bind_error raised]
  · refine spares_new first (spares_trans
      (spares_mono spared fun x (same : x = _) => show t.objects.size ≤ x by omega)
      (spares_mono spared' fun x (same : x = _) => show t.objects.size ≤ x by omega)) fun _ => id

theorem addShared_run (parent : Option (Nat × Slot)) (chunks : List Nat) (stack : List Frame)
    (t : VerkleTree Point) : ∃ parent' stack' t', addShared scheme parent chunks stack t =
      (.ok (parent', stack'), t') ∧ Spares (fun _ => False) t t' := by
  induction chunks generalizing parent stack t with
  | nil => exact ⟨parent, stack, t, rfl, spares_refl _ t⟩
  | cons chunk chunks ih =>
    obtain ⟨parent', stack', t', run, spared⟩ := ih (some (t.objects.size, .index chunk))
      (⟨parent, t.objects.size⟩ :: stack) (t.grow (newNode scheme.width .internal))
    refine ⟨parent', stack', t', ?_, spares_trans (spares_alloc _ t) spared⟩
    rw [addShared, bind_ok (allocate_run _ _), run]

/-- The stems part, and what is left of the new one does not fit. -/
theorem diverge_refused (lawful : Lawful scheme) (refuses : Refuses scheme)
    {t : VerkleTree Point} {node : Nat} (top : Frame) (frames : List Frame)
    {shared p q : List (Fin scheme.width)} {i j : Fin scheme.width} (differ : i ≠ j)
    (covers : (t.objects.read node).stem = (shared ++ i :: p).map Fin.val) (wide : ¬ Narrow q)
    {x : Fin scheme.width} {v : V} (readable : Readable (childList (single x v))) :
    Refused scheme (fun y => y = node) t (diverge scheme node ((shared ++ j :: q).map Fin.val)
      x.val (Entry.bytes v) (top :: frames)) := by
  obtain ⟨parent, frames', t₁, chain, spared⟩ : ∃ parent frames' t₁, addShared scheme top.parent
      (shared.map Fin.val) frames t = (.ok (parent, frames'), t₁) ∧ Spares (fun _ => False) t t₁ :=
    addShared_run _ _ _ _
  have spared₂ := spares_alloc (newNode scheme.width .internal) t₁
  let t₂ := t₁.grow (newNode scheme.width .internal)
  let t₃ := t₂.store node { t.objects.read node with stem := p.map Fin.val }
  have spared₃ : Spares (fun y => y = node) t₂ t₃ := spares_write _ _ _
  obtain ⟨stack, t₄, e, t₅, added, raised, spared₄⟩ := addGroup_refused lawful refuses t₃
    t₁.objects.size j.val wide readable
    (⟨some (t₁.objects.size, .index i.val), node⟩ :: ⟨parent, t₁.objects.size⟩ :: frames')
  refine ⟨stack, t₄, e, t₅, ?_, raised, ?_⟩
  · have matched := matchLength_shared shared differ p q
    have taken : ((shared ++ i :: p).map Fin.val).take shared.length = shared.map Fin.val := by
      simp
    have dropped (k : Fin scheme.width) (r : List (Fin scheme.width)) :
        ((shared ++ k :: r).map Fin.val).drop (shared.length + 1) = r.map Fin.val := by
      simp [← List.drop_drop]
    unfold diverge
    rw [bind_ok (readNode_run _ _)]
    simp only [covers, matched, taken]
    rw [bind_ok chain]
    simp only [bind_run, allocate_run, lift_run, chunkAt_shared, writeNode_run, dropped]
    exact added
  · exact spares_trans (spares_mono spared fun _ => False.elim) (spares_trans
      (spares_mono spared₂ fun _ => False.elim)
      (spares_trans spared₃ (spares_mono spared₄ fun _ => False.elim)))

/- Trees of words. -/

theorem sound_update {width : Nat} {kids : Fin width → Trie width V} (below : ∀ i, Sound (kids i))
    {t : Trie width V} (sound : Sound t) (i : Fin width) :
    Sound (.inner (Function.update kids i t)) := by
  intro j
  by_cases here : j = i
  · subst here
    simpa using sound
  · simpa [here] using below j

theorem sound_bare {width : Nat} (i : Fin width) : Sound ((bare : Fin width → Trie width V) i) :=
  trivial

theorem nest_sound {width : Nat} (path : List (Fin width)) {t : Trie width V} (sound : Sound t) :
    Sound (nest path t) := by
  induction path with
  | nil => exact sound
  | cons i path ih => exact sound_update sound_bare ih i

theorem storable_words {width : Nat} {stem : List (Fin width)} {slots : Fin width → Option Word}
    (short : stem.length < 256) (narrow : Narrow stem) : Storable stem slots :=
  ⟨short, narrow, childList_words slots⟩

/-- Where the old stem fits and the tree after an insert does not, what is left
    of the new stem does not fit. -/
theorem part_wide {width : Nat} {slots : Fin width → Option Word} {stem k : List (Fin width)}
    (storable : Storable stem slots) (lengths : stem.length = k.length) (apart : stem ≠ k)
    {x : Fin width} {v : Word} (wide : ¬ Sound (part slots (single x v) stem k)) :
    ∃ shared i p j q, stem = shared ++ i :: p ∧ k = shared ++ j :: q ∧ i ≠ j ∧ ¬ Narrow q := by
  obtain ⟨shared, i, p, j, q, rfl, rfl, differ, built⟩ := part_nest slots (single x v) lengths apart
  refine ⟨shared, i, p, j, q, rfl, rfl, differ, ?_⟩
  intro narrow
  have old : Storable p slots := by
    refine storable_words ?_ fun c member => storable.narrow c (by simp [member])
    have short := storable.short
    simp only [List.length_append, List.length_cons] at short
    omega
  have new : Storable q (single x v) := by
    refine storable_words ?_ narrow
    have short := storable.short
    simp only [List.length_append, List.length_cons] at short lengths
    omega
  rw [built] at wide
  apply wide
  apply nest_sound
  apply sound_update _ ((sound_group _ _).mpr new)
  exact sound_update sound_bare ((sound_group _ _).mpr old) i

/-- Phase 1 leads to a refusal where no further internal node lies on the way
    and the tree after the insert has no room for its stem. -/
theorem descend_below_refused (lawful : Lawful scheme) (refuses : Refuses scheme)
    (x : Fin scheme.width) (v : Word) {k : List (Fin scheme.width)} {i : Fin scheme.width}
    {t : VerkleTree Point} (valid : t.disk.db.Consistent) {node : Nat} (stack : List Frame)
    {kids : Fin scheme.width → Trie scheme.width} (shows : Shows scheme t node kids)
    (fits : Fits (kids i) k.length) (short : k.length < 256)
    (wide : ¬ Sound (StemTree.insert (kids i) k x v)) (last : ¬ IsInner (kids i)) :
    Refused scheme (fun _ => False) t
      (descend scheme x.val v.bytes ((i :: k).map Fin.val) node stack) := by
  have below := shows.written i
  cases kind : kids i with
  | inner kids' => simp [kind, IsInner] at last
  | empty =>
    rw [kind] at wide
    have large : ¬ Narrow k := fun narrow => wide (storable_words short narrow)
    have refused := addGroup_refused lawful refuses t node i.val large
      (childList_words (single x v)) stack
    have none : refOf scheme (kids i) = none := by rw [kind]; rfl
    exact refused_before (spares_refl _ t) (descend_none shows none k _ _ _) refused
      fun _ => False.elim
  | group stem slots =>
    rw [kind] at below fits wide
    obtain ⟨storable, stored, child, named, q, point, holds⟩ := below
    have found : refOf scheme (kids i) = some (pointRef scheme q) := by
      rw [kind, refOf, nodePoint, named, point]
      rfl
    have loads := load_extension lawful valid storable.narrow point ⟨q, point, holds⟩
    have object := grow_new t (extensionNode scheme stem child q)
    have apart : stem ≠ k := by
      rintro rfl
      apply wide
      rw [StemTree.insert, if_pos rfl]
      exact storable_words short storable.narrow
    rw [StemTree.insert, if_neg apart] at wide
    obtain ⟨shared, a, p, b, r, rfl, rfl, differ, large⟩ := part_wide storable fits apart wide
    have refused := diverge_refused lawful refuses
      (t := t.grow (extensionNode scheme (shared ++ a :: p) child q))
      ⟨some (node, .index i.val), t.objects.size⟩ stack differ (by rw [object]; rfl) large
      (childList_words (single x v))
    refine refused_before (spares_alloc _ t) ?_ refused (fun y (same : y = _) => by rw [same])
    have chunks : ¬ (shared ++ a :: p).map Fin.val = (shared ++ b :: r).map Fin.val :=
      fun equal => apart (List.map_injective_iff.mpr Fin.val_injective equal)
    have covers : ((t.grow (extensionNode scheme (shared ++ a :: p) child q)).objects.read
        t.objects.size).stem = (shared ++ a :: p).map Fin.val := by rw [object]; rfl
    rw [descend_some shows found loads, descend_extension (by rw [object]; rfl), atExtension,
      bind_ok (readNode_run _ _)]
    simp only [covers, chunks, ↓reduceIte, entry_word]

theorem descend_refused (lawful : Lawful scheme) (refuses : Refuses scheme) (x : Fin scheme.width)
    (v : Word) (k : List (Fin scheme.width)) (i : Fin scheme.width) {t : VerkleTree Point}
    (valid : t.disk.db.Consistent) {node : Nat} (stack : List Frame)
    {kids : Fin scheme.width → Trie scheme.width} (shows : Shows scheme t node kids)
    (fits : Fits (kids i) k.length) (short : k.length < 256)
    (wide : ¬ Sound (StemTree.insert (kids i) k x v)) :
    Refused scheme (fun _ => False) t
      (descend scheme x.val v.bytes ((i :: k).map Fin.val) node stack) := by
  induction k generalizing i t node stack kids with
  | nil =>
    refine descend_below_refused lawful refuses x v valid stack shows fits short wide fun inner => ?_
    cases kind : kids i <;> simp [kind, IsInner, Fits] at inner fits
  | cons i' k ih =>
    cases kind : kids i with
    | inner kids' =>
      have written := shows.written i
      rw [kind] at fits written wide
      obtain ⟨m, size, below⟩ := fits
      simp only [List.length_cons, Nat.add_right_cancel_iff] at size
      simp only [List.length_cons] at short
      obtain ⟨⟨p, point, holds⟩, under⟩ := written
      have deeper : ¬ Sound (StemTree.insert (kids' i') k x v) := by
        intro sound
        apply wide
        rw [StemTree.insert]
        exact sound_update (fun i => written_sound (under i)) sound i'
      have found : refOf scheme (kids i) = some (pointRef scheme p) := by
        rw [kind, refOf, nodePoint_inner, point]
        rfl
      have loads := load_array lawful valid point ⟨p, point, holds⟩
      have refused := ih i' (t := t.grow (arrayNode scheme .internal (refs scheme kids') p)) valid
        (⟨some (node, .index i.val), t.objects.size⟩ :: stack) (loaded_shows t under p)
        (size ▸ below i') (by omega) deeper
      exact refused_before (spares_alloc _ t) (descend_some shows found loads (i' :: k) _ _ _)
        refused fun _ => False.elim
    | _ =>
      exact descend_below_refused lawful refuses x v valid stack shows fits short wide
        (by simp [kind, IsInner])

/- Whole inserts. -/

theorem holding_spares {t t' : VerkleTree Point} {kids : Fin scheme.width → Trie scheme.width V}
    (held : Holding scheme t kids) (spared : Spares (fun _ => False) t t') :
    Holding scheme t' kids := by
  rcases held with ⟨idle, rfl⟩ | ⟨id, p, standing, rootRef, rootFile⟩
  · have same (id : Nat) (root : t'.root = some id) : id < t.objects.size ∧
        t'.objects.read id = t.objects.read id ∧ t.root = some id := by
      have held := idle.held id (spared.root ▸ root)
      exact ⟨held, spared.objects id held (fun none => none), spared.root ▸ root⟩
    refine Or.inl ⟨⟨spared.rootFile.trans idle.unnamed, ?_, ?_, ?_⟩, rfl⟩
    · intro id root
      exact Nat.lt_of_lt_of_le (same id root).1 spared.size
    · intro id root
      rw [(same id root).2.1]
      exact idle.typed id (same id root).2.2
    · intro id root
      rw [(same id root).2.1]
      exact idle.children id (same id root).2.2
  · have object := spared.objects id standing.shows.held fun none => none
    obtain ⟨q, point, holds⟩ := standing.stored
    refine Or.inr ⟨id, p, ⟨spared.root.trans standing.root,
      shows_keeps standing.shows spared.toKeeps (fun none => none), standing.point,
      by rw [object]; exact standing.value, by rw [object]; exact standing.commitment,
      q, point, holds_later spared.db holds⟩, spared.rootRef.trans rootRef,
      spared.rootFile.trans rootFile⟩

theorem ensureRoot_holding {t t' : VerkleTree Point} {root : Nat}
    {kids : Fin scheme.width → Trie scheme.width V} (held : Holding scheme t kids)
    (made : ensureRoot scheme t = (.ok root, t')) : Holding scheme t' kids := by
  rcases held with ⟨idle, rfl⟩ | represents
  · cases named : t.root with
    | some id =>
      simp only [ensureRoot, bind_run, reads_run, named, pure_run, Prod.mk.injEq] at made
      rw [← made.2]
      exact Or.inl ⟨idle, rfl⟩
    | none =>
      have shows := bare_shows V scheme t
      simp only [ensureRoot, bind_run, reads_run, named, allocate_run, modify_run, pure_run,
        Prod.mk.injEq] at made
      rw [← made.2]
      refine Or.inl ⟨⟨idle.unnamed, ?_, ?_, ?_⟩, rfl⟩
      · rintro id ⟨⟩
        exact shows.held
      · rintro id ⟨⟩
        exact shows.typed
      · rintro id ⟨⟩
        have children := shows.children
        rwa [refs_bare, childList_bare] at children
  · obtain ⟨id, p, standing, _⟩ := id represents
    simp only [ensureRoot, bind_run, reads_run, standing.root, pure_run, Prod.mk.injEq] at made
    rw [← made.2]
    exact Or.inr represents

section Keys
variable {bits : Nat} [NeZero scheme.width]

/-- An insert for which the node format has no room raises, and from the point where
    there is a root nothing but the database has changed. -/
theorem refused_run (lawful : Lawful scheme) (refuses : Refuses scheme)
    (cuts : Cuts scheme.width bits) {t : VerkleTree Point}
    {kids : Fin scheme.width → Trie scheme.width} (held : Holding scheme t kids)
    (rooted : Rooted kids (depth scheme.width)) (key value : Word)
    (wide : ¬ Sound (insertKey (.inner kids) key value)) (valid : t.disk.db.Consistent) :
    ∃ root t₁ e t₂, ensureRoot scheme t = (.ok root, t₁) ∧
      VerkleTrees.insert scheme key.bytes value.bytes t = (.error e, t₂) ∧
      Spares (fun _ => False) t₁ t₂ := by
  obtain ⟨root, t₁, made, disk, shows⟩ := ensureRoot_shows held
  obtain ⟨i, k, stem, size⟩ := stemOf_cons cuts key
  have few := Nat.div_le_self 256 scheme.width.log2
  have short : k.length < 256 := by rw [size, depth]; omega
  have below : ¬ Sound (StemTree.insert (kids i) k (suffixOf scheme.width key) value) := by
    intro sound
    apply wide
    rw [insertKey, stem, StemTree.insert]
    exact sound_update (fun j => written_sound (shows.written j)) sound i
  obtain ⟨stack, t₂, e, t₃, down, raised, spared⟩ := descend_refused lawful refuses
    (suffixOf scheme.width key) value k i (t := t₁) (by rw [disk]; exact valid) [⟨none, root⟩] shows
    (size ▸ rooted.fits i) short below
  refine ⟨root, t₁, e, t₃, made, ?_, spared⟩
  unfold VerkleTrees.insert
  rw [bind_ok (by rw [lift_run, splitKey_ok cuts key])]
  simp only [stem]
  rw [bind_ok made, bind_ok down, bind_error raised]

theorem insert_refused (lawful : Lawful scheme) (refuses : Refuses scheme)
    (cuts : Cuts scheme.width bits) {t : VerkleTree Point}
    {kids : Fin scheme.width → Trie scheme.width} (held : Holding scheme t kids)
    (rooted : Rooted kids (depth scheme.width)) (key value : Word)
    (wide : ¬ Sound (insertKey (.inner kids) key value)) (valid : t.disk.db.Consistent) :
    (∃ e, (VerkleTrees.insert scheme key.bytes value.bytes t).1 = .error e) ∧
      Holding scheme (VerkleTrees.insert scheme key.bytes value.bytes t).2 kids := by
  obtain ⟨root, t₁, e, t₂, made, run, spared⟩ :=
    refused_run lawful refuses cuts held rooted key value wide valid
  rw [run]
  exact ⟨⟨e, rfl⟩, holding_spares (ensureRoot_holding held made) spared⟩

end Keys

end VerkleRefusal
