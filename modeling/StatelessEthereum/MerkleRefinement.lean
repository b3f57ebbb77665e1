import StatelessEthereum.MerkleStorage

/- `_update` refines inserting into an abstract trie: from a trie on disk it
   returns the reference of the changed trie and leaves that trie on disk. -/
namespace MerkleRefinement
open PythonError BigEndian NibblePaths MerkleNodes MerkleForms StateEffect PutLog DiskLog CompactTrie
open MerkleTrees hiding insert
open MerkleStorage
variable {scheme : Scheme} {limits : Limits} {codec : Codec scheme limits}

/- Slots of a branch under construction. -/

variable (codec) in
def slotsOf (cs : Nat → NibbleTrie) : List PyObj :=
  (List.range 16).map fun i => .bytes (refOf codec (cs i))

theorem entry_slotsOf {cs : Nat → NibbleTrie} {i : Nat} (inside : i < 16) :
    entry (slotsOf codec cs) i = .ok (.bytes (refOf codec (cs i))) := by
  simp [entry, slotsOf, inside]

theorem set_slotsOf {cs : Nat → NibbleTrie} {i : Nat} (inside : i < 16) (t : NibbleTrie) :
    (slotsOf codec cs).set i (.bytes (refOf codec t)) =
      slotsOf codec (Function.update cs i t) := by
  apply List.ext_getElem?
  intro j
  by_cases same : j = i
  · subst same
    simp [slotsOf, inside]
  · rw [List.getElem?_set_ne (Ne.symm same)]
    by_cases range : j < 16
    · simp [slotsOf, range, same]
    · simp [slotsOf, range]

theorem setEntry_slotsOf {cs : Nat → NibbleTrie} {i : Nat} (inside : i < 16) (t : NibbleTrie) :
    setEntry (slotsOf codec cs) i (.bytes (refOf codec t)) =
      .ok (slotsOf codec (Function.update cs i t)) := by
  rw [setEntry, if_pos (by simpa [slotsOf] using inside), set_slotsOf inside]

variable (codec) in
theorem emptyBranches_slots : emptyBranches = slotsOf codec fun _ => .empty := rfl

theorem shows_branch (cs : Nat → NibbleTrie) (v : Option Bytes) :
    Shows (.branch (slotsOf codec cs) (.bytes (v.getD []))) (formOf codec (.branch cs v)) := by
  refine ⟨?_, rfl⟩
  rw [slotsOf, List.map_map]
  rfl

theorem shows_branch_inv {branches : List PyObj} {data : PyObj} {cs : Nat → NibbleTrie}
    {v : Option Bytes} (shows : Shows (.branch branches data) (formOf codec (.branch cs v))) :
    branches = slotsOf codec cs ∧ data = .bytes (v.getD []) := by
  obtain ⟨slots, value⟩ := shows
  rw [List.map_map] at slots
  exact ⟨slots, value⟩

theorem attach_written {db : Store Bytes Bytes} {cs : Nat → NibbleTrie} {i : Nat}
    {rest : List Nat} {grow : List Nat → NibbleTrie} (slots : ∀ i, Written codec db (cs i))
    (grown : Written codec db (grow rest)) (j : Nat) :
    Written codec db (attach cs (i :: rest) grow j) := by
  by_cases same : j = i
  · subst same; simpa [attach] using grown
  · simpa [attach, same] using slots j

theorem path_cons {path : NibblePath} {i : Nat} {rest : List Nat}
    (shape : path.remaining = i :: rest) :
    path.len = rest.length + 1 ∧ path.atIndex 0 = .ok i ∧ (path.consume 1).remaining = rest :=
  ⟨by rw [← NibblePath.remaining_length, shape, List.length_cons],
    NibblePath.atIndex_zero shape, by simp [shape]⟩

theorem pathOk_cons {i : Nat} {rest : List Nat} (valid : limits.PathOk (i :: rest)) :
    i < 16 ∧ limits.PathOk rest :=
  ⟨limits.digits _ valid i (by simp), limits.infixes _ _ (List.suffix_cons i rest).isInfix valid⟩

theorem createBranchLeaf_slots {path : NibblePath} {cs : Nat → NibbleTrie} {v : Bytes}
    {s : MerklePatriciaTrie} (width : path.width = 16) (valid : limits.PathOk path.remaining)
    (value : limits.ValueOk v) (slots : ∀ i, Written codec s.disk.db (cs i)) :
    Ensures (Good limits) (createBranchLeaf scheme path (.bytes v) (slotsOf codec cs)) s
      fun branches s' =>
        branches = slotsOf codec (attach cs path.remaining fun rest => .leaf rest v) ∧
          ∀ i, Written codec s'.disk.db (attach cs path.remaining (fun rest => .leaf rest v) i) := by
  cases shape : path.remaining with
  | nil =>
    have none : path.len = 0 := (NibblePath.len_eq_zero_iff path).mpr shape
    simp only [createBranchLeaf, none, Nat.lt_irrefl, ↓reduceIte]
    exact ensures_pure ⟨rfl, slots⟩
  | cons i rest =>
    obtain ⟨size, digit, tail⟩ := path_cons shape
    rw [shape] at valid
    obtain ⟨inside, below⟩ := pathOk_cons valid
    simp only [createBranchLeaf, size, Nat.zero_lt_succ, ↓reduceIte, digit]
    refine ensures_bind_lift rfl (ensures_bind (good_back limits) (storeNode_puts scheme _)
      (fun _ => along_lift puts_refl _)
      (storeNode_trie codec (t := .leaf rest v) ⟨trivial, below, value⟩ (by simp)
        ⟨by simpa using width, tail, rfl⟩ fun u child => by cases child) ?_)
    rintro _ s' moved ⟨rfl, written⟩
    exact ensures_lift (setEntry_slotsOf inside _)
      ⟨rfl, attach_written (fun i => written_later moved.grows (slots i)) written⟩

theorem createBranchExtension_slots {path : NibblePath} {cs : Nat → NibbleTrie} {t : NibbleTrie}
    {s : MerklePatriciaTrie} (width : path.width = 16) (valid : limits.PathOk path.remaining)
    (covers : path.remaining ≠ []) (below : Valid limits t) (shape : IsBranch t)
    (stored : Written codec s.disk.db t) (slots : ∀ i, Written codec s.disk.db (cs i)) :
    Ensures (Good limits)
      (createBranchExtension scheme path (.bytes (refOf codec t)) (slotsOf codec cs)) s
      fun branches s' =>
        branches = slotsOf codec (attach cs path.remaining fun rest => place rest t) ∧
          ∀ i, Written codec s'.disk.db (attach cs path.remaining (fun rest => place rest t) i) := by
  cases digits : path.remaining with
  | nil => exact absurd digits covers
  | cons i rest =>
    obtain ⟨size, digit, tail⟩ := path_cons digits
    rw [digits] at valid
    obtain ⟨inside, restOk⟩ := pathOk_cons valid
    have long : ¬ path.len < 1 := by omega
    cases rest with
    | nil =>
      have one : path.len = 1 := by simpa using size
      simp only [createBranchExtension, one, Nat.lt_irrefl, ↓reduceIte, digit]
      refine ensures_bind_lift rfl (ensures_lift (setEntry_slotsOf inside t) ⟨by simp [attach, place], ?_⟩)
      exact attach_written slots (by simpa [place] using stored)
    | cons j rest =>
      have more : path.len ≠ 1 := by simp only [List.length_cons] at size; omega
      have extension : place (j :: rest) t = .ext (j :: rest) t := by simp [place]
      simp only [createBranchExtension, long, more, ↓reduceIte, digit]
      refine ensures_bind_lift rfl (ensures_bind (good_back limits) (storeNode_puts scheme _)
        (fun _ => along_lift puts_refl _)
        (storeNode_trie codec (t := .ext (j :: rest) t)
          ⟨⟨by simp, shape, below.canonical⟩, restOk, below.sized⟩ (by simp)
          ⟨by simpa using width, tail, rfl⟩ fun u child => by cases child; exact stored) ?_)
      rintro _ s' moved ⟨rfl, written⟩
      exact ensures_lift (setEntry_slotsOf inside _) ⟨by simp [attach, place],
        attach_written (fun i => written_later moved.grows (slots i)) (by rw [extension]; exact written)⟩

theorem storeAbove_place (path : NibblePath) {t : NibbleTrie} {s : MerklePatriciaTrie}
    (width : path.width = 16) (valid : limits.PathOk path.remaining) (below : Valid limits t)
    (shape : IsBranch t) (stored : Written codec s.disk.db t) :
    Ensures (Good limits) (storeAbove scheme path (refOf codec t)) s fun r s' =>
      r = refOf codec (place path.remaining t) ∧
        Written codec s'.disk.db (place path.remaining t) := by
  by_cases covers : path.remaining = []
  · have none : path.len = 0 := (NibblePath.len_eq_zero_iff path).mpr covers
    simp only [storeAbove, none, ne_eq, not_true_eq_false, ↓reduceIte, place, covers]
    exact ensures_pure ⟨rfl, stored⟩
  · have some : path.len ≠ 0 := fun none => covers ((NibblePath.len_eq_zero_iff path).mp none)
    simp only [storeAbove, some, ne_eq, not_false_eq_true, ↓reduceIte, place, covers]
    exact storeNode_trie codec (t := .ext path.remaining t)
      ⟨⟨covers, shape, below.canonical⟩, valid, below.sized⟩ (by simp)
      ⟨width, rfl, rfl⟩ fun u child => by cases child; exact stored

/- Updating. -/

theorem getNode_trie {db : Store Bytes Bytes} {t : NibbleTrie} (good : Admissible limits db)
    (valid : Valid limits t) (stored : Written codec db t) (occupied : t ≠ .empty) :
    ∃ node, getNode scheme db (.bytes (refOf codec t)) = .ok node ∧
      Shows node (formOf codec t) := by
  have storable := storable_formOf valid occupied fun u child held =>
    written_refOk good (written_child stored child) held
  obtain ⟨node, loaded, shows⟩ := codec.loads _ storable
  have found := get_of_member good.consistent (written_member stored occupied)
  refine ⟨node, ?_, shows⟩
  simp only [getNode, found, loaded]

theorem fork_valid {a b : List Nat} {v : Bytes} {w : Option Bytes} {grow : List Nat → NibbleTrie}
    (parts : a.head? ≠ b.head?) (held : b = [] → w.isSome) (ha : limits.PathOk a)
    (hb : limits.PathOk b) (hv : limits.ValueOk v) (hw : ∀ x, w = some x → limits.ValueOk x)
    (canonical : ∀ rest, Canonical (grow rest)) (occupied : ∀ rest, grow rest ≠ .empty)
    (sized : ∀ i rest, b = i :: rest → Sized limits (grow rest)) :
    Valid limits (fork a v b w grow) :=
  ⟨fork_canonical parts held canonical occupied, fork_sized ha hb hv hw sized⟩

variable (codec) in
/-- The branch over two paths that part, with a leaf on each. -/
theorem createBranchNode_fork (pathA pathB : NibblePath) {v w : Bytes} (s : MerklePatriciaTrie)
    (widthA : pathA.width = 16) (widthB : pathB.width = 16)
    (parts : pathA.remaining.head? ≠ pathB.remaining.head?)
    (validA : limits.PathOk pathA.remaining) (validB : limits.PathOk pathB.remaining)
    (hv : limits.ValueOk v) (hw : limits.ValueOk w) :
    let t := fork pathA.remaining v pathB.remaining (some w) fun rest => .leaf rest w
    Ensures (Good limits) (createBranchNode scheme pathA (.bytes v) pathB (.bytes w)) s
      fun r s' => (r = refOf codec t ∧ Written codec s'.disk.db t) ∧ Valid limits t := by
  intro t
  have valid : Valid limits t := by
    refine fork_valid parts (fun _ => rfl) validA validB hv ?_ (fun _ => trivial)
      (fun _ => by simp) ?_
    · rintro x ⟨⟩
      exact hw
    · rintro i rest shape
      exact ⟨(pathOk_cons (shape ▸ validB)).2, hw⟩
  have some : ¬ (pathA.len = 0 ∧ pathB.len = 0) := by
    rw [NibblePath.len_eq_zero_iff, NibblePath.len_eq_zero_iff]
    rintro ⟨ha, hb⟩
    simp [ha, hb] at parts
  simp only [createBranchNode, some, ↓reduceIte, emptyBranches_slots codec]
  have value : (if pathA.len = 0 then PyObj.bytes v
      else if pathB.len = 0 then .bytes w else .bytes []) =
      .bytes ((if pathA.remaining = [] then Option.some v
        else if pathB.remaining = [] then Option.some w else none).getD []) := by
    simp only [NibblePath.len_eq_zero_iff]
    split <;> [rfl; split <;> rfl]
  rw [value]
  refine ensures_bind (good_back limits)
    (along_createBranchLeaf puts_refl puts_trans (storeNode_puts scheme) _ _ _)
    (fun _ => along_bind puts_trans
      (along_createBranchLeaf puts_refl puts_trans (storeNode_puts scheme) _ _ _)
      fun _ => storeNode_puts scheme _)
    (createBranchLeaf_slots widthA validA hv fun _ => .empty) ?_
  rintro _ _ _ ⟨rfl, left⟩
  refine ensures_bind (good_back limits)
    (along_createBranchLeaf puts_refl puts_trans (storeNode_puts scheme) _ _ _)
    (fun _ => storeNode_puts scheme _) (createBranchLeaf_slots widthB validB hw left) ?_
  rintro _ _ _ ⟨rfl, both⟩
  refine ensures_mono (storeNode_trie codec valid (by simp [t, fork]) (shows_branch _ _) ?_)
    fun r s' holds => ⟨holds, valid⟩
  intro u child
  obtain ⟨i, rfl⟩ := child_slot child
  exact both i

variable (codec) in
theorem truthy_refOf {t : NibbleTrie} (occupied : t ≠ .empty) :
    (!(PyObj.bytes (refOf codec t)).truthy) = false := by
  have some : refOf codec t ≠ [] := fun none => occupied ((refOf_eq_nil_iff t).mp none)
  simp [PyObj.truthy, some]

theorem len_common {path nodePath : NibblePath} :
    (path.commonPrefix nodePath).len = (common path.remaining nodePath.remaining).length := by
  rw [← NibblePath.remaining_length, NibblePath.remaining_commonPrefix]

theorem pathOk_drop {p : List Nat} (valid : limits.PathOk p) (n : Nat) :
    limits.PathOk (p.drop n) := limits.infixes _ _ (List.drop_suffix n p).isInfix valid

theorem pathOk_common {p : List Nat} (valid : limits.PathOk p) (q : List Nat) :
    limits.PathOk (common p q) := limits.infixes _ _ (common_prefix_left p q).isInfix valid

variable (codec) in
/-- The trie `t` is what a run of `_update` returns and leaves on disk. -/
def Yields (x : TrieEffect Bytes) (s : MerklePatriciaTrie) (t : NibbleTrie) : Prop :=
  Ensures (Good limits) x s fun r s' => r = refOf codec t ∧ Written codec s'.disk.db t

section Cases
variable {path nodePath : NibblePath} {value : Bytes} {s : MerklePatriciaTrie}
variable (width : path.width = 16) (pathOk : limits.PathOk path.remaining)
variable (valueOk : limits.ValueOk value)
include width pathOk valueOk

theorem updateLeaf_insert {w : Bytes} (nodeWidth : nodePath.width = 16)
    (valid : Valid limits (.leaf nodePath.remaining w)) :
    Yields codec (updateLeaf scheme nodePath (.bytes w) path value) s
      (insert (.leaf nodePath.remaining w) path.remaining value) := by
  unfold updateLeaf
  by_cases same : nodePath.remaining = path.remaining
  · simp only [CompactTrie.insert, same, (NibblePath.eq_iff _ _).mpr same, ↓reduceIte]
    exact storeNode_trie codec (t := .leaf path.remaining value) ⟨trivial, pathOk, valueOk⟩
      (by simp) ⟨nodeWidth, same, rfl⟩ fun u child => by cases child
  · have differ : ¬ nodePath.eq path = true := fun equal => same ((NibblePath.eq_iff _ _).mp equal)
    have parts := (common_parts path.remaining nodePath.remaining).resolve_right (Ne.symm same)
    have fork := createBranchNode_fork codec (path.consume (path.commonPrefix nodePath).len)
      (nodePath.consume (path.commonPrefix nodePath).len) s width nodeWidth
      (by simpa [len_common] using parts) (by simpa using pathOk_drop pathOk _)
      (by simpa using pathOk_drop valid.sized.1 _) valueOk valid.sized.2
    simp only [CompactTrie.insert, same, differ, ↓reduceIte]
    refine ensures_bind (good_back limits)
      (along_createBranchNode puts_refl puts_trans (storeNode_puts scheme) _ _ _ _)
      (fun _ => along_storeAbove puts_refl (storeNode_puts scheme) _ _) fork ?_
    rintro _ s' moved ⟨⟨rfl, written⟩, below⟩
    have above := storeAbove_place (path.commonPrefix nodePath) width
      (by rw [NibblePath.remaining_commonPrefix]; exact pathOk_common pathOk _) below trivial written
    simpa only [NibblePath.remaining_commonPrefix, NibblePath.remaining_consume, len_common]
      using above

omit width in
/-- The path runs through an extension: only what is below it changes. -/
theorem updateExtension_covered {t : NibbleTrie} {next : PyObj → NibblePath → TrieEffect Bytes}
    (moves : ∀ ref rest, Along Puts (next ref rest)) (nodeWidth : nodePath.width = 16)
    (valid : Valid limits (.ext nodePath.remaining t))
    (covered : nodePath.remaining <+: path.remaining)
    (below : Yields codec (next (.bytes (refOf codec t)) (path.consume nodePath.len)) s
      (insert t (path.remaining.drop nodePath.len) value)) :
    Yields codec (updateExtension scheme next nodePath (.bytes (refOf codec t)) path value) s
      (insert (.ext nodePath.remaining t) path.remaining value) := by
  have starts := (NibblePath.startsWith_iff path nodePath).mpr covered
  have whole := insert_valid valid pathOk valueOk
  simp only [CompactTrie.insert, covered, ↓reduceIte] at whole ⊢
  simp only [updateExtension, starts, ↓reduceIte]
  refine ensures_bind (good_back limits) (moves _ _) (fun _ => storeNode_puts scheme _) below ?_
  rintro _ s' moved ⟨rfl, written⟩
  simp only [NibblePath.remaining_length] at whole ⊢
  refine storeNode_trie codec whole (by simp) ⟨nodeWidth, rfl, rfl⟩ ?_
  rintro _ ⟨⟩
  exact written

/-- The path leaves an extension part way: a branch where they part. -/
theorem updateExtension_apart {t : NibbleTrie} {next : PyObj → NibblePath → TrieEffect Bytes}
    (nodeWidth : nodePath.width = 16) (valid : Valid limits (.ext nodePath.remaining t))
    (stored : Written codec s.disk.db t) (apart : ¬ nodePath.remaining <+: path.remaining) :
    Yields codec (updateExtension scheme next nodePath (.bytes (refOf codec t)) path value) s
      (insert (.ext nodePath.remaining t) path.remaining value) := by
  have below := valid_child valid .ext
  have starts : ¬ path.startsWith nodePath = true := fun h =>
    apart ((NibblePath.startsWith_iff path nodePath).mp h)
  have differ : nodePath.remaining ≠ path.remaining := fun same =>
    apart (same ▸ List.prefix_refl _)
  have parts := (common_parts path.remaining nodePath.remaining).resolve_right (Ne.symm differ)
  have covers : nodePath.remaining.drop (common path.remaining nodePath.remaining).length ≠ [] := by
    intro none
    have whole := common_append_drop_right path.remaining nodePath.remaining
    rw [none, List.append_nil] at whole
    exact apart (whole ▸ common_prefix_left _ _)
  have forked : Valid limits (fork
      (path.remaining.drop (common path.remaining nodePath.remaining).length) value
      (nodePath.remaining.drop (common path.remaining nodePath.remaining).length) none
      fun rest => place rest t) := fork_valid parts
    (fun none => absurd none covers) (pathOk_drop pathOk _) (pathOk_drop valid.sized.1 _) valueOk
    (by simp) (fun _ => place_canonical valid.canonical.2.1 below.canonical)
    (fun _ => place_ne_empty (below_ext valid))
    fun i rest shape => place_sized
      (pathOk_cons (shape ▸ pathOk_drop valid.sized.1 _ : limits.PathOk (i :: rest))).2 below.sized
  simp only [updateExtension, CompactTrie.insert, apart, starts, ↓reduceIte,
    emptyBranches_slots codec]
  refine ensures_bind (good_back limits)
    (along_createBranchLeaf puts_refl puts_trans (storeNode_puts scheme) _ _ _)
    (fun _ => along_bind puts_trans
      (along_createBranchExtension puts_refl puts_trans (storeNode_puts scheme) _ _ _)
      fun _ => along_bind puts_trans (storeNode_puts scheme _) fun _ =>
        along_storeAbove puts_refl (storeNode_puts scheme) _ _)
    (createBranchLeaf_slots width (by simpa using pathOk_drop pathOk _) valueOk
      fun _ => .empty) ?_
  rintro _ _ moved ⟨rfl, left⟩
  refine ensures_bind (good_back limits)
    (along_createBranchExtension puts_refl puts_trans (storeNode_puts scheme) _ _ _)
    (fun _ => along_bind puts_trans (storeNode_puts scheme _) fun _ =>
        along_storeAbove puts_refl (storeNode_puts scheme) _ _)
    (createBranchExtension_slots nodeWidth (by simpa using pathOk_drop valid.sized.1 _)
      (by simpa [len_common] using covers) below valid.canonical.2.1
      (written_later moved.grows stored) left) ?_
  rintro _ _ _ ⟨rfl, both⟩
  have slotValue : (if (path.consume (path.commonPrefix nodePath).len).len = 0
      then PyObj.bytes value else .bytes []) = .bytes
      ((if path.remaining.drop (common path.remaining nodePath.remaining).length = []
        then Option.some value
        else if nodePath.remaining.drop (common path.remaining nodePath.remaining).length = []
          then none else none).getD []) := by
    simp only [NibblePath.len_eq_zero_iff, NibblePath.remaining_consume, len_common]
    split <;> rfl
  simp only [NibblePath.remaining_consume, len_common] at both slotValue ⊢
  rw [slotValue]
  refine ensures_bind (good_back limits) (storeNode_puts scheme _)
    (fun _ => along_storeAbove puts_refl (storeNode_puts scheme) _ _)
    (storeNode_trie codec forked (by simp [fork]) (shows_branch _ _) ?_) ?_
  · intro u child
    obtain ⟨i, rfl⟩ := child_slot child
    exact both i
  · rintro _ s' _ ⟨rfl, written⟩
    have above := storeAbove_place (path.commonPrefix nodePath) width
      (by rw [NibblePath.remaining_commonPrefix]; exact pathOk_common pathOk _) forked trivial
      written
    simpa only [NibblePath.remaining_commonPrefix] using above

omit width in
/-- The path ends at a branch: only its value changes. -/
theorem updateBranch_here {cs : Nat → NibbleTrie} {w : Option Bytes}
    {next : PyObj → NibblePath → TrieEffect Bytes} (valid : Valid limits (.branch cs w))
    (stored : ∀ i, Written codec s.disk.db (cs i)) (ended : path.remaining = []) :
    Yields codec (updateBranch scheme next (slotsOf codec cs) (.bytes (w.getD [])) path value) s
      (insert (.branch cs w) path.remaining value) := by
  have whole := insert_valid valid pathOk valueOk
  have none : path.len = 0 := (NibblePath.len_eq_zero_iff path).mpr ended
  simp only [ended, CompactTrie.insert] at whole ⊢
  simp only [updateBranch, none, ↓reduceIte]
  refine storeNode_trie codec whole (by simp) (shows_branch cs (some value)) ?_
  intro u child
  obtain ⟨i, rfl⟩ := child_slot child
  exact stored i

omit width in
/-- The path enters a slot of a branch: only that child changes. -/
theorem updateBranch_below {cs : Nat → NibbleTrie} {w : Option Bytes} {i : Nat} {rest : List Nat}
    {next : PyObj → NibblePath → TrieEffect Bytes} (moves : ∀ ref rest, Along Puts (next ref rest))
    (valid : Valid limits (.branch cs w)) (stored : ∀ i, Written codec s.disk.db (cs i))
    (shape : path.remaining = i :: rest)
    (below : Yields codec (next (.bytes (refOf codec (cs i))) (path.consume 1)) s
      (insert (cs i) rest value)) :
    Yields codec (updateBranch scheme next (slotsOf codec cs) (.bytes (w.getD [])) path value) s
      (insert (.branch cs w) path.remaining value) := by
  have whole := insert_valid valid pathOk valueOk
  obtain ⟨size, digit, tail⟩ := path_cons shape
  rw [shape] at pathOk
  have inside := (pathOk_cons pathOk).1
  have some : path.len ≠ 0 := by omega
  simp only [shape, CompactTrie.insert] at whole ⊢
  simp only [updateBranch, some, ↓reduceIte, digit]
  refine ensures_bind_lift rfl (ensures_bind_lift (entry_slotsOf inside) ?_)
  refine ensures_bind (good_back limits) (moves _ _) (fun _ => storeNode_puts scheme _) below ?_
  rintro _ s' moved ⟨rfl, written⟩
  rw [set_slotsOf inside]
  refine storeNode_trie codec whole (by simp) (shows_branch _ w) ?_
  intro u child
  obtain ⟨j, rfl⟩ := child_slot child
  by_cases same : j = i
  · subst same; simpa using written
  · simpa [same] using written_later moved.grows (stored j)

end Cases

/-- The case of `_update` at the top node of an occupied trie. -/
theorem update_at {t : NibbleTrie} (valid : Valid limits t) {depth : Nat} {path : NibblePath}
    {value : Bytes} {s : MerklePatriciaTrie} {u : NibbleTrie} (stored : Written codec s.disk.db t)
    (occupied : t ≠ .empty) (deep : path.len < depth)
    (cases : ∀ depth node, path.len ≤ depth → Shows node (formOf codec t) →
      let next := fun ref rest => update scheme depth ref rest value
      Yields codec (match node with
        | .leaf nodePath data => updateLeaf scheme nodePath data path value
        | .extension nodePath nextRef => updateExtension scheme next nodePath nextRef path value
        | .branch branches data => updateBranch scheme next branches data path value) s u) :
    Yields codec (update scheme depth (.bytes (refOf codec t)) path value) s u := by
  cases depth with
  | zero => omega
  | succ depth =>
    refine ensures_from (good_back limits) (update_puts _ _ _ _ _) fun good => ?_
    obtain ⟨node, found, shows⟩ := getNode_trie good valid stored occupied
    simp only [update, truthy_refOf codec occupied, Bool.false_eq_true, ↓reduceIte]
    exact ensures_bind_reads found (cases depth node (by omega) shows)

/-- What `_update` returns and leaves on disk for a trie on disk. -/
theorem update_insert {t : NibbleTrie} (valid : Valid limits t) (depth : Nat) (path : NibblePath)
    {value : Bytes} (s : MerklePatriciaTrie) (stored : Written codec s.disk.db t)
    (width : path.width = 16) (pathOk : limits.PathOk path.remaining)
    (valueOk : limits.ValueOk value) (deep : path.len < depth) :
    Yields codec (update scheme depth (.bytes (refOf codec t)) path value) s
      (insert t path.remaining value) := by
  induction t generalizing depth path s with
  | empty =>
    obtain ⟨depth, rfl⟩ := Nat.exists_eq_add_of_lt deep
    simp only [update, refOf, PyObj.truthy, List.isEmpty_nil, Bool.not_true, Bool.not_false,
      ↓reduceIte]
    exact storeNode_trie codec (t := .leaf path.remaining value) ⟨trivial, pathOk, valueOk⟩
      (by simp) ⟨width, rfl, rfl⟩ fun u child => by cases child
  | leaf p w =>
    refine update_at valid stored (by simp) deep fun depth node deep loaded => ?_
    cases node <;> simp only [formOf, Shows] at loaded
    obtain ⟨nodeWidth, rfl, rfl⟩ := loaded
    exact updateLeaf_insert width pathOk valueOk nodeWidth valid
  | ext p t ih =>
    refine update_at valid stored (by simp) deep fun depth node deep loaded => ?_
    cases node <;> simp only [formOf, Shows] at loaded
    rename_i nodePath nextRef
    obtain ⟨nodeWidth, rfl, rfl⟩ := loaded
    by_cases covered : nodePath.remaining <+: path.remaining
    · obtain ⟨some, fits⟩ := ext_covers valid covered
      refine updateExtension_covered pathOk valueOk (fun _ _ => update_puts _ _ _ _ _)
        nodeWidth valid covered ?_
      have below := ih (valid_child valid .ext) depth (path.consume nodePath.len) s
        (written_child stored .ext) width (by simpa using pathOk_drop pathOk _)
        (by rw [NibblePath.len_consume]; omega)
      simpa only [NibblePath.remaining_consume] using below
    · exact updateExtension_apart width pathOk valueOk nodeWidth valid
        (written_child stored .ext) covered
  | branch cs w ih =>
    refine update_at valid stored (by simp) deep fun depth node deep loaded => ?_
    cases node <;> simp only [formOf, Shows] at loaded
    obtain ⟨rfl, rfl⟩ := shows_branch_inv loaded
    have slots (i : Nat) : Written codec s.disk.db (cs i) := written_child stored (.slot i)
    cases shape : path.remaining with
    | nil =>
      rw [← shape]
      exact updateBranch_here pathOk valueOk valid slots shape
    | cons i rest =>
      obtain ⟨size, _, tail⟩ := path_cons shape
      have below := ih i (valid_child valid (.slot i)) depth (path.consume 1) s (slots i) width
        (by rw [tail]; exact (pathOk_cons (shape ▸ pathOk : limits.PathOk (i :: rest))).2)
        (by rw [NibblePath.len_consume]; omega)
      rw [← shape]
      rw [tail] at below
      exact updateBranch_below pathOk valueOk (fun _ _ => update_puts _ _ _ _ _) valid slots
        shape below

end MerkleRefinement
