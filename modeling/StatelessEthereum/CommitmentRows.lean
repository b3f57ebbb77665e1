import StatelessEthereum.CommitmentPaths

/- Row openings of the trace commitment (`CommitmentTree`, zkSTARK/commitment.py):
   which of the tree's own openings are accepted, and which others are. -/
namespace CommitmentRows
open BigEndian PythonError FiatShamir FriProtocol HashPaths CommitmentPaths

def rowString (values : List UInt64) : Bytes := values.flatMap fieldBytes

def rowOf (columns : List (List UInt64)) (index : Nat) : List UInt64 :=
  columns.map fun col => col.getD index 0

structure Table (columns : List (List UInt64)) (nRows : Nat) : Prop where
  wide : columns ≠ []
  rectangular : ∀ col ∈ columns, col.length = nRows
  some : 0 < nRows

def rowStrings (columns : List (List UInt64)) (nRows : Nat) : List Bytes :=
  (List.range nRows).map fun i => rowString (rowOf columns i)

def openingStrings (sha256 : Digest) (columns : List (List UInt64)) (nRows : Nat)
    (tree : List (List Bytes)) (index : Nat) (values : List UInt64) (path : List Bytes) :
    List Bytes :=
  treeStrings (rowStrings columns nRows) tree ++ pathStrings sha256 (rowString values) index path

structure Committed (sha256 : Digest) (columns : List (List UInt64)) (tree : List (List Bytes))
    (root : Bytes) : Prop where
  built : commitmentTree sha256 columns = .ok tree
  rooted : topOf tree = .ok root

/-- Below the root the index has a sibling on every level, where `width` is the
    number of rows halved, rounding up. -/
def HasSiblings (nRows index : Nat) : Prop :=
  ∀ l, 1 < width nRows l → (index >>> l) ^^^ 1 < width nRows l

/-- An inner node passed off as a row: the values spell its two children, and the
    path is its own. -/
def InnerAsRow (tree : List (List Bytes)) (index : Nat) (values : List UInt64)
    (path : List Bytes) : Prop :=
  let place := index % 2 ^ path.length
  ∃ h left right, path.length + (h + 1) = tree.length - 1 ∧
    (tree.getD h [])[2 * place]? = some left ∧ (tree.getD h [])[2 * place + 1]? = some right ∧
    rowString values = left ++ right ∧ siblings (tree.drop (h + 1)).dropLast place = path

/-- A row passed off as an inner node: the first steps lead to its hash, and the
    others are its own path. -/
def RowAsInner (sha256 : Digest) (columns : List (List UInt64)) (tree : List (List Bytes))
    (index : Nat) (values : List UInt64) (path : List Bytes) : Prop :=
  ∃ first last, path = first ++ last ∧ first ≠ [] ∧ last.length = tree.length - 1 ∧
    let place := index / 2 ^ first.length % 2 ^ last.length
    FriProtocol.climb sha256 index (rowHash sha256 values) first =
        rowHash sha256 (rowOf columns place) ∧
      siblings tree.dropLast place = last

/-- Another row than the committed one, by mistaking rows and inner nodes. A row
    of eight elements is as long as two hashes. -/
def PassedOff (sha256 : Digest) (columns : List (List UInt64)) (tree : List (List Bytes))
    (index : Nat) (values : List UInt64) (path : List Bytes) : Prop :=
  columns.length = 8 ∧ values ≠ rowOf columns index ∧
    (InnerAsRow tree index values path ∨ RowAsInner sha256 columns tree index values path)

/-- Every sibling the prover meets at its own index is joined by the verifier's
    on the same side, or is equal to the node itself. -/
def Aligned : List (List Bytes) → Nat → Nat → Prop
  | [], _, _ => True
  | layer :: above, verifierIdx, proverIdx =>
    match layer[proverIdx ^^^ 1]? with
    | some sibling =>
      (verifierIdx % 2 = proverIdx % 2 ∨ layer[proverIdx]? = some sibling) ∧
        Aligned above (verifierIdx >>> 1) (proverIdx >>> 1)
    | none => Aligned above verifierIdx (proverIdx >>> 1)

section Trees
variable {sha256 : Digest} {columns : List (List UInt64)} {nRows : Nat}

def rowLeaf (sha256 : Digest) (columns : List (List UInt64)) (i : Nat) : Bytes :=
  rowHash sha256 (rowOf columns i)

theorem rowLeaf_length (i : Nat) : (rowLeaf sha256 columns i).length = 32 := sha256.size _

theorem rowString_length (values : List UInt64) :
    (rowString values).length = 8 * values.length := by
  induction values with
  | nil => rfl
  | cons x values ih =>
    rw [rowString, List.flatMap_cons, List.length_append, ← rowString, ih, fieldBytes,
      toBytes_length, List.length_cons]
    omega

theorem rowString_injective {values others : List UInt64}
    (same : rowString values = rowString others) : values = others := by
  have sizes := congrArg List.length same
  rw [rowString_length, rowString_length] at sizes
  induction values generalizing others with
  | nil =>
    cases others with
    | nil => rfl
    | cons y others => simp at sizes
  | cons x values ih =>
    cases others with
    | nil => simp at sizes
    | cons y others =>
      have parts : fieldBytes x ++ rowString values = fieldBytes y ++ rowString others := same
      obtain ⟨first, rest⟩ := List.append_inj parts (by simp [fieldBytes])
      have shorter : 8 * values.length = 8 * others.length := by
        simp only [List.length_cons] at sizes
        omega
      rw [fieldBytes_injective first, ih rest shorter]

theorem commitmentTree_levels (sha256 : Digest) (table : Table columns nRows) :
    ∃ top, Rises nRows top ∧ commitmentTree sha256 columns = .ok
      ((List.range (top + 1)).map (level (joinHash sha256.hash) (rowLeaf sha256 columns) nRows)) := by
  have rows : (columns.head?.map List.length).getD 0 = nRows := by
    obtain ⟨col, rest, rfl⟩ := List.exists_cons_of_ne_nil table.wide
    exact table.rectangular col List.mem_cons_self
  have even : ¬ (columns.any fun col => col.length ≠ nRows) = true := by
    intro ragged
    obtain ⟨col, member, other⟩ := List.any_eq_true.mp ragged
    exact of_decide_eq_true other (table.rectangular col member)
  obtain ⟨top, rises, layers⟩ := rising_layers sha256 .ok (rowLeaf sha256 columns)
    (Or.inl rfl) table.some
  refine ⟨top, rises, ?_⟩
  unfold commitmentTree
  rw [rows, if_neg even]
  exact layers

theorem rowAt_rowOf (table : Table columns nRows) {index : Nat} (inside : index < nRows) :
    rowAt columns index = .ok (rowOf columns index) := by
  apply mapM_of_each
  rw [rowOf, List.forall₂_map_right_iff, List.forall₂_same]
  intro col member
  have low : index < col.length := by
    rw [table.rectangular col member]
    exact inside
  rw [itemAt, List.getElem?_eq_getElem low, List.getD_eq_getElem _ _ low]

theorem aligned_agrees {leaf : Nat → Bytes} {h levels j i : Nat} (inside : i < width nRows h) :
    Aligned ((List.range' h levels).map (level (joinHash sha256.hash) leaf nRows)) j i ↔
      Agrees (joinHash sha256.hash) leaf nRows h levels j i := by
  induction levels generalizing h j i with
  | zero => exact Iff.rfl
  | succ levels ih =>
    rw [List.range'_succ, List.map_cons, Aligned, Agrees, Nat.shiftRight_one, Nat.shiftRight_one]
    by_cases paired : i ^^^ 1 < width nRows h
    · simp only [if_pos paired, level_at paired, level_at inside, Option.some.injEq,
        ih (half_inside inside)]
    · simp only [if_neg paired, level_none paired, ih (half_inside inside)]

theorem hasSiblings_paired {top index : Nat} (rises : Rises nRows top) :
    HasSiblings nRows index ↔ ∀ l < top, (index / 2 ^ l) ^^^ 1 < width nRows (0 + l) := by
  simp only [HasSiblings, Nat.shiftRight_eq_div_pow, Nat.zero_add]
  constructor
  · intro siblings l low
    exact siblings l (rises.wide l low)
  · intro siblings l wide
    apply siblings
    by_contra high
    rw [width_above rises (Nat.le_of_not_lt high)] at wide
    omega

/-- The tree of a table under strings that do not collide. -/
theorem rows_sealed {top : Nat} {strings : List Bytes} (rises : Rises nRows top)
    (collisionless : Collisionless sha256 strings)
    (built : treeStrings (rowStrings columns nRows) ((List.range (top + 1)).map
      (level (joinHash sha256.hash) (rowLeaf sha256 columns) nRows)) ⊆ strings) :
    Sealed sha256.hash 32 (rowLeaf sha256 columns) nRows {x | x ∈ strings} ∧
      ∀ i < nRows, rowLeaf sha256 columns i = sha256.hash (rowString (rowOf columns i)) ∧
        rowString (rowOf columns i) ∈ {x | x ∈ strings} := by
  constructor
  · exact sealed_levels rises rowLeaf_length collisionless built
  · intro i low
    constructor
    · rfl
    · apply built
      apply List.mem_append_left
      exact List.mem_map.mpr ⟨i, List.mem_range.mpr low, rfl⟩

/-- An opening from the tree itself is accepted where the index has a sibling on
    every level. Where one is missing, the sides are mixed up above it, which goes
    unnoticed only where equal nodes are joined; rows of any other number than
    eight are too short or too long for that. -/
theorem row_opening_verifies_iff (sha256 : Digest) {columns : List (List UInt64)} {nRows : Nat}
    (table : Table columns nRows) {index : Nat} (inside : index < nRows) :
    ∃ tree root values path, Committed sha256 columns tree root ∧
      getQueryResponse columns tree index = .ok (values, path) ∧
      ((HasSiblings nRows index ∨ columns.length = 8 ∧ Aligned tree.dropLast index index) →
        verifyQuery sha256 root index values path = true) ∧
      (Collisionless sha256 (openingStrings sha256 columns nRows tree index values path) →
        verifyQuery sha256 root index values path = true →
          HasSiblings nRows index ∨ columns.length = 8 ∧ Aligned tree.dropLast index index) := by
  obtain ⟨top, rises, built⟩ := commitmentTree_levels sha256 table
  let leaf := rowLeaf sha256 columns
  have summit : node (joinHash sha256.hash) leaf nRows (0 + top) (index / 2 ^ top) =
      node (joinHash sha256.hash) leaf nRows top 0 := by
    have low := inside_above (h := 0) top inside
    rw [Nat.zero_add, rises.single] at low
    rw [Nat.zero_add, Nat.lt_one_iff.mp low]
  have aligned : Aligned ((List.range' 0 top).map (level (joinHash sha256.hash) leaf nRows))
      index index ↔ Agrees (joinHash sha256.hash) leaf nRows 0 top index index :=
    aligned_agrees inside
  refine ⟨_, _, rowOf columns index, copath (joinHash sha256.hash) leaf nRows 0 top index,
    ⟨built, topOf_levels rises⟩, ?_, ?_, ?_⟩
  · unfold getQueryResponse
    rw [rowAt_rowOf table inside, dropLast_levels, siblings_copath]
    rfl
  · intro known
    have agrees : Agrees (joinHash sha256.hash) leaf nRows 0 top index index := by
      rcases known with siblings | ⟨_, same⟩
      · exact agrees_of_paired ((hasSiblings_paired rises).mp siblings)
      · rw [dropLast_levels] at same
        exact aligned.mp same
    have rise := climb_copath inside agrees
    rw [summit] at rise
    rw [verifyQuery, climb_same]
    exact beq_iff_eq.mpr rise
  · intro collisionless accepted
    obtain ⟨sealing, spelled⟩ := rows_sealed rises collisionless (List.subset_append_left _ _)
    have reached := eq_of_beq accepted
    rw [climb_same, ← summit] at reached
    have hashed : ∀ x ∈ climbStrings sha256.hash index (rowHash sha256 (rowOf columns index))
        (copath (joinHash sha256.hash) leaf nRows 0 top index),
        x ∈ openingStrings sha256 columns nRows
          ((List.range (top + 1)).map (level (joinHash sha256.hash) leaf nRows)) index
          (rowOf columns index) (copath (joinHash sha256.hash) leaf nRows 0 top index) :=
      fun x member => List.mem_append_right _ (List.mem_cons_of_mem _ member)
    have agrees := ((sealing.climb_copath_iff inside (sha256.size _) hashed).mp reached).2
    by_cases eight : columns.length = 8
    · rw [dropLast_levels]
      exact Or.inr ⟨eight, aligned.mpr agrees⟩
    · have apart : ∀ i < nRows, (rowString (rowOf columns i)).length ≠ 2 * 32 := by
        intro i _
        rw [rowString_length, rowOf, List.length_map]
        omega
      have wide : ∀ l < top, 1 < width nRows (0 + l) := by
        intro l low
        rw [Nat.zero_add]
        exact rises.wide l low
      have single : width nRows (0 + top) = 1 := by
        rw [Nat.zero_add]
        exact rises.single
      have paired := sealing.agrees_paired spelled apart inside wide single agrees
      exact Or.inl ((hasSiblings_paired rises).mpr paired)

/- Trees of `2 ^ k` rows. -/
section Powers
variable {k index : Nat} {values : List UInt64} {path : List Bytes} (power : nRows = 2 ^ k)

def rowLevels (sha256 : Digest) (columns : List (List UInt64)) (nRows k : Nat) :
    List (List Bytes) :=
  (List.range (k + 1)).map (level (joinHash sha256.hash) (rowLeaf sha256 columns) nRows)

theorem rowLevels_length : (rowLevels sha256 columns nRows k).length - 1 = k := by
  simp [rowLevels]

theorem rowLevels_at {h i : Nat} (low : h ≤ k) (inside : i < width nRows h) :
    ((rowLevels sha256 columns nRows k).getD h [])[i]? =
      some (node (joinHash sha256.hash) (rowLeaf sha256 columns) nRows h i) := by
  rw [rowLevels, List.getD_eq_getElem _ _ (by simp; omega), List.getElem_map, List.getElem_range,
    level_at inside]

theorem rowLevels_siblings (sha256 : Digest) (columns : List (List UInt64)) (nRows h m i : Nat)
    (height : h + m = k) :
    siblings ((rowLevels sha256 columns nRows k).drop h).dropLast i =
      copath (joinHash sha256.hash) (rowLeaf sha256 columns) nRows h m i := by
  have size : k + 1 - h = m + 1 := by omega
  rw [rowLevels, ← List.map_drop, List.range_eq_range', List.drop_range', size, Nat.mul_one,
    Nat.zero_add, List.range'_concat, List.map_append, List.map_singleton, List.dropLast_concat,
    siblings_copath]

include power

/-- The path of a node leads to the root, by every index with the same low bits. -/
theorem node_rises (sha256 : Digest) (columns : List (List UInt64)) {h m : Nat}
    (height : h + m = k) (i : Nat) :
    HashPaths.climb (joinHash sha256.hash) i
        (node (joinHash sha256.hash) (rowLeaf sha256 columns) nRows h (i % 2 ^ m))
        (copath (joinHash sha256.hash) (rowLeaf sha256 columns) nRows h m (i % 2 ^ m)) =
      node (joinHash sha256.hash) (rowLeaf sha256 columns) nRows k 0 := by
  have low : i % 2 ^ m < 2 ^ m := Nat.mod_lt _ (Nat.two_pow_pos m)
  have size : (copath (joinHash sha256.hash) (rowLeaf sha256 columns) nRows h m
      (i % 2 ^ m)).length = m := by
    rw [power]
    exact copath_length (paired_two_pow height low)
  rw [← climb_mod, size, power]
  exact node_opens height low

theorem children_inside {h m i : Nat} (height : m + (h + 1) = k) :
    2 * (i % 2 ^ m) + 1 < width nRows h := by
  have low : i % 2 ^ m < 2 ^ m := Nat.mod_lt _ (Nat.two_pow_pos m)
  have gap : k - h = m + 1 := by omega
  rw [power, width_two_pow k h (by omega), gap, pow_succ']
  omega

theorem passedOff_reaches
    (passed : PassedOff sha256 columns (rowLevels sha256 columns nRows k) index values path) :
    HashPaths.climb (joinHash sha256.hash) index (rowHash sha256 values) path =
      node (joinHash sha256.hash) (rowLeaf sha256 columns) nRows k 0 := by
  obtain ⟨_, _, ⟨h, left, right, height, first, second, spelled, steps⟩ |
    ⟨first, last, parts, _, height, leads, steps⟩⟩ := passed
  · rw [rowLevels_length] at height
    rw [rowLevels_siblings sha256 columns nRows (h + 1) path.length _ (by omega)] at steps
    have paired : 2 * (index % 2 ^ path.length) + 1 < width nRows h :=
      children_inside power height
    rw [rowLevels_at (by omega) (by omega), Option.some.injEq] at first second
    have rise := node_rises power sha256 columns (show h + 1 + path.length = k by omega) index
    rw [steps, node, if_pos paired, first, second, joinHash, ← spelled] at rise
    exact rise
  · rw [rowLevels_length] at height
    have bottom := rowLevels_siblings sha256 columns nRows 0 k
      (index / 2 ^ first.length % 2 ^ last.length) (Nat.zero_add k)
    have rise := node_rises power sha256 columns (Nat.zero_add k) (index / 2 ^ first.length)
    rw [List.drop_zero, steps, height] at bottom
    rw [← bottom] at rise
    rw [climb_same, height] at leads
    rw [parts, climb_append, leads]
    exact rise

/-- What is accepted is the committed row, unless an inner node passes for a row
    or a row for an inner node. -/
theorem row_opening_binds_iff (sha256 : Digest) (table : Table columns nRows)
    (inside : index < nRows) (count : values.length = columns.length)
    (words : ∀ sibling ∈ path, sibling.length = 32) :
    ∃ tree root, Committed sha256 columns tree root ∧
      (Collisionless sha256 (openingStrings sha256 columns nRows tree index values path) →
        ((verifyQuery sha256 root index values path = true → values = rowOf columns index) ↔
          ¬ PassedOff sha256 columns tree index values path)) := by
  obtain ⟨top, rises, built⟩ := commitmentTree_levels sha256 table
  have height : top = k := rises_unique rises (power ▸ rises_two_pow k)
  rw [height] at rises built
  refine ⟨rowLevels sha256 columns nRows k, _, ⟨built, topOf_levels rises⟩, ?_⟩
  intro collisionless
  obtain ⟨sealing, spelled⟩ := rows_sealed rises collisionless (List.subset_append_left _ _)
  rw [verifyQuery, climb_same, beq_iff_eq]
  constructor
  · intro binds passed
    exact passed.2.1 (binds (passedOff_reaches power passed))
  · intro other reached
    have known : rowString values ∈
        openingStrings sha256 columns nRows (rowLevels sha256 columns nRows k) index values path :=
      List.mem_append_right _ List.mem_cons_self
    have hashed : ∀ x ∈ climbStrings sha256.hash index (rowHash sha256 values) path,
        x ∈ openingStrings sha256 columns nRows (rowLevels sha256 columns nRows k) index values path :=
      fun x member => List.mem_append_right _ (List.mem_cons_of_mem _ member)
    by_contra differs
    apply other
    rcases sealing.climb_opens spelled power inside known hashed reached with
      ⟨_, same, _⟩ | ⟨h, height, same, steps⟩ | ⟨first, last, parts, some, height, member, leads, steps⟩
    · exact absurd (rowString_injective same) differs
    · have sizes := congrArg List.length same
      rw [rowString_length, List.length_append, sealing.node_length, sealing.node_length] at sizes
      have paired : 2 * (index % 2 ^ path.length) + 1 < width nRows h :=
        children_inside power height
      refine ⟨by omega, differs, Or.inl ⟨h, _, _, ?_, ?_, ?_, same, ?_⟩⟩
      · rw [rowLevels_length]
        exact height
      · exact rowLevels_at (by omega) (by omega)
      · exact rowLevels_at (by omega) paired
      · rw [rowLevels_siblings sha256 columns nRows (h + 1) path.length _ (by omega)]
        exact steps.symm
    · obtain ⟨sibling, inFirst, size⟩ := sealing.climbStrings_length (sha256.size _) _ member
      have word : sibling.length = 32 := by
        apply words
        rw [parts]
        exact List.mem_append_left _ inFirst
      rw [rowString_length, rowOf, List.length_map] at size
      refine ⟨by omega, differs, Or.inr ⟨first, last, parts, some, ?_, ?_, ?_⟩⟩
      · rw [rowLevels_length]
        exact height
      · rw [climb_same, height]
        exact leads
      · have bottom := rowLevels_siblings sha256 columns nRows 0 k
          (index / 2 ^ first.length % 2 ^ last.length) (Nat.zero_add k)
        rw [List.drop_zero] at bottom
        rw [bottom, height]
        exact steps.symm

end Powers

end Trees

def threeRows : List (List UInt64) := [[1, 2, 3]]

theorem threeRows_table : Table threeRows 3 := by
  constructor
  · decide
  · decide
  · decide

def threeTree : List (List Bytes) := ((commitmentTree residue threeRows).toOption).getD []

def threeRoot : Bytes := ((topOf threeTree).toOption).getD []

/-- The last of three rows moves up alone before it is joined on the right. -/
theorem last_row_refused : Committed residue threeRows threeTree threeRoot ∧
    ∃ values path, getQueryResponse threeRows threeTree 2 = .ok (values, path) ∧
      verifyQuery residue threeRoot 2 values path = false := by
  constructor
  · exact ⟨by decide +kernel, by decide +kernel⟩
  · exact ⟨[3], [threeTree.getD 1 [] |>.getD 0 []], by decide +kernel, by decide +kernel⟩

theorem first_row_verifies : ∃ tree root values path, Committed residue threeRows tree root ∧
    getQueryResponse threeRows tree 0 = .ok (values, path) ∧
      verifyQuery residue root 0 values path = true := by
  obtain ⟨tree, root, values, path, committed, response, verifies, _⟩ :=
    row_opening_verifies_iff residue threeRows_table (show 0 < 3 by decide)
  have paired : HasSiblings 3 0 := by
    intro l wide
    rw [Nat.zero_shiftRight]
    exact wide
  exact ⟨tree, root, values, path, committed, response, verifies (Or.inl paired)⟩

def eightColumns : List (List UInt64) :=
  [[0, 0], [0, 0], [0, 0], [0, 0], [0, 0], [0, 0], [0, 0], [0, 1]]

def hashesAsRow : List UInt64 := [0, 0, 0, 64, 0, 0, 0, 320]

def eightTree : List (List Bytes) := ((commitmentTree residue eightColumns).toOption).getD []

def eightRoot : Bytes := ((topOf eightTree).toOption).getD []

/-- The root itself passes for a row. -/
theorem forged_row_accepted : Committed residue eightColumns eightTree eightRoot ∧
    Collisionless residue (openingStrings residue eightColumns 2 eightTree 0 hashesAsRow []) ∧
    verifyQuery residue eightRoot 0 hashesAsRow [] = true ∧
    rowOf eightColumns 0 ≠ hashesAsRow := by
  constructor
  · exact ⟨by decide +kernel, by decide +kernel⟩
  · decide +kernel

theorem eight_columns_bind_iff : eightColumns.length = hashesAsRow.length ∧
    ∃ tree root, Committed residue eightColumns tree root ∧
      (Collisionless residue (openingStrings residue eightColumns 2 tree 0 hashesAsRow []) →
        ((verifyQuery residue root 0 hashesAsRow [] = true →
          hashesAsRow = rowOf eightColumns 0) ↔
          ¬ PassedOff residue eightColumns tree 0 hashesAsRow [])) := by
  have table : Table eightColumns 2 := ⟨by decide, by decide, by decide⟩
  have power : 2 = 2 ^ 1 := rfl
  have words : ∀ sibling ∈ ([] : List Bytes), sibling.length = 32 := by simp
  exact ⟨rfl, row_opening_binds_iff power residue table (by decide) rfl words⟩

end CommitmentRows
