import StatelessEthereum.FriProtocol
import StatelessEthereum.HashPaths

/- Authentication paths (zkSTARK/commitment.py). The layers of both trees are the
   levels of a hash tree, so what is proved of climbs there holds of the checks
   here. -/
namespace CommitmentPaths
open BigEndian PythonError FiatShamir FriProtocol HashPaths

structure MerkleTree where
  nLeaves : Nat
  layers : List (List Bytes)
  root : Bytes
  deriving DecidableEq

/-- The loop of `get_authentication_path` -/
def pathAlong : List (List Bytes) → Nat → Except PyError (List Bytes)
  | [], _ => .ok []
  | layer :: above, currentIdx =>
    match layer[currentIdx ^^^ 1]? with
    | some sibling => do
      let path ← pathAlong above (currentIdx >>> 1)
      .ok (sibling :: path)
    | none => .error .indexError

def getAuthenticationPath (tree : MerkleTree) (index : Nat) : Except PyError (List Bytes) :=
  if tree.nLeaves ≤ index then .error (.valueError s!"Index {index} out of range")
  else pathAlong tree.layers.dropLast index

section Hashing
variable (sha256 : Digest)

/-- The constructor of `MerkleTree`. -/
def newTree (leaves : List UInt64) : Except PyError MerkleTree := do
  let layers ← merkleTree sha256 leaves
  let root ← topOf layers
  .ok ⟨leaves.length, layers, root⟩

def verifyPath (tree : MerkleTree) (index : Nat) (value : UInt64) (path : List Bytes) : Bool :=
  FriProtocol.climb sha256 index (leafHash sha256 (fieldBytes value)) path == tree.root

def leafString (value : UInt64) : Bytes := ascii "LEAF:" ++ fieldBytes value

def pairStrings : List Bytes → List Bytes
  | left :: right :: rest => (left ++ right) :: pairStrings rest
  | _ => []

def treeStrings (leafStrings : List Bytes) (layers : List (List Bytes)) : List Bytes :=
  leafStrings ++ layers.flatMap pairStrings

def pathStrings (start : Bytes) (index : Nat) (path : List Bytes) : List Bytes :=
  start :: climbStrings sha256.hash index (sha256.hash start) path

end Hashing

/- The layers as levels. -/
section Layers
variable {sha256 : Digest}

theorem climb_same (index : Nat) (current : Bytes) (path : List Bytes) :
    FriProtocol.climb sha256 index current path =
      HashPaths.climb (joinHash sha256.hash) index current path := by
  induction path generalizing index current with
  | nil => rfl
  | cons sibling path ih =>
    rw [FriProtocol.climb, HashPaths.climb, ih, Nat.shiftRight_one, Nat.and_one_is_mod]
    rcases Nat.mod_two_eq_zero_or_one index with even | odd
    · rw [even, if_neg (by simp), if_neg (by simp)]
      rfl
    · rw [odd, if_pos (by simp), if_pos (by simp)]
      rfl

theorem nextLayer_pairs {alone : Bytes → Except PyError Bytes} (layer : List Bytes)
    (even : alone = .ok ∨ layer.length % 2 = 0) :
    nextLayer sha256 alone layer = .ok (pairUp (joinHash sha256.hash) layer) := by
  induction layer using pairUp.induct with
  | case1 => rfl
  | case2 last =>
    rcases even with keeps | even
    · rw [keeps]
      rfl
    · simp at even
  | case3 left right rest ih =>
    have later : alone = .ok ∨ rest.length % 2 = 0 := by
      rcases even with keeps | even
      · exact Or.inl keeps
      · rw [List.length_cons, List.length_cons] at even
        exact Or.inr (by omega)
    rw [nextLayer, ih later]
    rfl

variable {leaf : Nat → Bytes} {n : Nat}

theorem layersUp_levels {alone : Bytes → Except PyError Bytes}
    (even : alone = .ok ∨ ∀ h, 1 < width n h → width n h % 2 = 0) (some : 0 < n) {turns h : Nat}
    (enough : width n h ≤ turns + 1) :
    ∃ rise, layersUp sha256 alone turns (level (joinHash sha256.hash) leaf n h) =
        .ok ((List.range' h (rise + 1)).map (level (joinHash sha256.hash) leaf n)) ∧
      (∀ l < rise, 1 < width n (h + l)) ∧ width n (h + rise) = 1 := by
  have positive := width_pos some h
  induction turns generalizing h with
  | zero =>
    refine ⟨0, rfl, by simp, ?_⟩
    rw [Nat.add_zero]
    omega
  | succ turns ih =>
    unfold layersUp
    rw [level_length]
    by_cases wide : 1 < width n h
    · have shorter : width n (h + 1) ≤ turns + 1 := by
        rw [width_halves]
        omega
      have pairs : alone = .ok ∨ (level (joinHash sha256.hash) leaf n h).length % 2 = 0 := by
        rw [level_length]
        exact even.imp_right fun halves => halves h wide
      obtain ⟨rise, above, wider, single⟩ := ih shorter (width_pos some (h + 1))
      refine ⟨rise + 1, ?_, ?_, ?_⟩
      · rw [if_pos wide, nextLayer_pairs _ pairs, pairUp_level]
        simp only [bind, Except.bind, above]
        rfl
      · intro l low
        cases l with
        | zero => exact wide
        | succ l =>
          rw [show h + (l + 1) = h + 1 + l by omega]
          exact wider l (Nat.lt_of_succ_lt_succ low)
      · rw [show h + (rise + 1) = h + 1 + rise by omega]
        exact single
    · refine ⟨0, by rw [if_neg wide]; rfl, by simp, ?_⟩
      rw [Nat.add_zero]
      omega

theorem rising_layers (sha256 : Digest) (alone : Bytes → Except PyError Bytes) (leaf : Nat → Bytes)
    (even : alone = .ok ∨ ∀ h, 1 < width n h → width n h % 2 = 0) (some : 0 < n) :
    ∃ top, Rises n top ∧ layersUp sha256 alone n (level (joinHash sha256.hash) leaf n 0) =
      .ok ((List.range (top + 1)).map (level (joinHash sha256.hash) leaf n)) := by
  obtain ⟨top, layers, wide, single⟩ := layersUp_levels even some (Nat.le_succ n) (h := 0)
  rw [← List.range_eq_range'] at layers
  simp only [Nat.zero_add] at wide single
  exact ⟨top, ⟨wide, single⟩, layers⟩

theorem topOf_levels {top : Nat} (rises : Rises n top) :
    topOf ((List.range (top + 1)).map (level (joinHash sha256.hash) leaf n)) =
      .ok (node (joinHash sha256.hash) leaf n top 0) := by
  have last : level (joinHash sha256.hash) leaf n top =
      [node (joinHash sha256.hash) leaf n top 0] := by
    rw [level, rises.single]
    rfl
  rw [List.range_succ, List.map_append, List.map_singleton, topOf, List.getLast?_concat, last]
  rfl

theorem dropLast_levels (top : Nat) :
    ((List.range (top + 1)).map (level (joinHash sha256.hash) leaf n)).dropLast =
      (List.range' 0 top).map (level (joinHash sha256.hash) leaf n) := by
  rw [List.range_succ, List.map_append, List.map_singleton, List.dropLast_concat,
    List.range_eq_range']

theorem siblings_copath (h levels i : Nat) :
    siblings ((List.range' h levels).map (level (joinHash sha256.hash) leaf n)) i =
      copath (joinHash sha256.hash) leaf n h levels i := by
  induction levels generalizing h i with
  | zero => rfl
  | succ levels ih =>
    rw [List.range'_succ, List.map_cons, siblings, copath, ih, Nat.shiftRight_one]
    by_cases paired : i ^^^ 1 < width n h
    · rw [if_pos paired, level_at paired]
    · rw [if_neg paired, level_none paired]

theorem pathAlong_copath {h levels i : Nat}
    (paired : ∀ l < levels, (i / 2 ^ l) ^^^ 1 < width n (h + l)) :
    pathAlong ((List.range' h levels).map (level (joinHash sha256.hash) leaf n)) i =
      .ok (copath (joinHash sha256.hash) leaf n h levels i) := by
  induction levels generalizing h i with
  | zero => rfl
  | succ levels ih =>
    obtain ⟨here, later⟩ := paired_later paired
    rw [List.range'_succ, List.map_cons, pathAlong, copath, if_pos here, level_at here,
      Nat.shiftRight_one]
    simp only [ih later, bind, Except.bind]

theorem pairStrings_mem {layer : List Bytes} {i : Nat} {left right : Bytes}
    (first : layer[2 * i]? = some left) (second : layer[2 * i + 1]? = some right) :
    left ++ right ∈ pairStrings layer := by
  induction layer using pairUp.induct generalizing i with
  | case1 => simp at first
  | case2 last => simp at second
  | case3 a b rest ih =>
    rw [pairStrings]
    cases i with
    | zero =>
      simp only [Nat.mul_zero, List.getElem?_cons_zero, Option.some.injEq, Nat.zero_add,
        List.getElem?_cons_succ] at first second
      rw [first, second]
      exact List.mem_cons_self
    | succ i =>
      apply List.mem_cons_of_mem
      apply ih (i := i)
      · exact first
      · exact second

/-- The layers of a tree give no two nodes one hash where its strings do not
    collide. -/
theorem sealed_levels {top : Nat} {strings leafStrings : List Bytes} (rises : Rises n top)
    (leafSize : ∀ i, (leaf i).length = 32) (collisionless : Collisionless sha256 strings)
    (built : treeStrings leafStrings
      ((List.range (top + 1)).map (level (joinHash sha256.hash) leaf n)) ⊆ strings) :
    Sealed sha256.hash 32 leaf n {x | x ∈ strings} := by
  refine ⟨collisionless, sha256.size, leafSize, ?_⟩
  intro h i paired
  have low : h < top := by
    by_contra high
    have single := width_above rises (Nat.le_of_not_lt high)
    omega
  apply built
  apply List.mem_append_right
  apply List.mem_flatMap.mpr
  refine ⟨level (joinHash sha256.hash) leaf n h, ?_, ?_⟩
  · exact List.mem_map_of_mem (List.mem_range.mpr (by omega))
  · exact pairStrings_mem (level_at (by omega)) (level_at paired)

end Layers

theorem map_getD {α β : Type} (f : α → β) (l : List α) (d : α) :
    l.map f = (List.range l.length).map fun i => f (l.getD i d) := by
  apply List.ext_getElem
  · simp
  · intro i inside _
    have low : i < l.length := by simpa using inside
    simp [List.getElem?_eq_getElem low]

theorem fieldBytes_injective {x y : UInt64} (same : fieldBytes x = fieldBytes y) : x = y := by
  have numbers := congrArg ofBytes same
  unfold fieldBytes at numbers
  rw [ofBytes_toBytes_of_lt (by simpa using x.toNat_lt),
    ofBytes_toBytes_of_lt (by simpa using y.toNat_lt)] at numbers
  exact UInt64.toNat_inj.mp numbers

/- The tree of field elements. -/
section Elements
variable {sha256 : Digest} {leaves : List UInt64} {k : Nat}

def leafAt (sha256 : Digest) (leaves : List UInt64) (i : Nat) : Bytes :=
  leafHash sha256 (fieldBytes (leaves.getD i 0))

theorem leafString_length (value : UInt64) : (leafString value).length = 13 := by
  simp [leafString, fieldBytes, ascii]

theorem leafString_injective {x y : UInt64} (same : leafString x = leafString y) : x = y :=
  fieldBytes_injective (List.append_cancel_left same)

theorem halves_even (power : leaves.length = 2 ^ k) (h : Nat)
    (wide : 1 < width leaves.length h) : width leaves.length h % 2 = 0 := by
  rw [power] at wide ⊢
  by_cases low : h < k
  · have above : k - h = k - h - 1 + 1 := by omega
    rw [width_two_pow k h (Nat.le_of_lt low), above, pow_succ]
    exact Nat.mul_mod_left _ 2
  · have single := width_above (rises_two_pow k) (Nat.le_of_not_lt low)
    omega

/-- The tree over `2 ^ k` leaves. -/
def treeOf (sha256 : Digest) (leaves : List UInt64) (k : Nat) : MerkleTree :=
  ⟨leaves.length,
    (List.range (k + 1)).map (level (joinHash sha256.hash) (leafAt sha256 leaves) leaves.length),
    node (joinHash sha256.hash) (leafAt sha256 leaves) leaves.length k 0⟩

theorem newTree_levels (power : leaves.length = 2 ^ k) :
    newTree sha256 leaves = .ok (treeOf sha256 leaves k) := by
  have exact := (Nat.ne_zero_and_sub_one_eq_zero_iff_isPowerOfTwo.mpr ⟨k, power⟩).2
  have some : 0 < leaves.length := by
    rw [power]
    exact Nat.two_pow_pos k
  have first : (leaves.map fun leaf => leafHash sha256 (fieldBytes leaf)) =
      level (joinHash sha256.hash) (leafAt sha256 leaves) leaves.length 0 :=
    map_getD (fun leaf => leafHash sha256 (fieldBytes leaf)) leaves 0
  obtain ⟨top, rises, layers⟩ := rising_layers sha256 (fun _ => .error .indexError)
    (leafAt sha256 leaves) (Or.inr (halves_even power)) some
  have height : top = k := rises_unique rises (by rw [power]; exact rises_two_pow k)
  rw [← first, height] at layers
  rw [height] at rises
  unfold newTree merkleTree
  rw [if_neg (by simp [exact]), layers]
  simp only [bind, Except.bind, topOf_levels rises, treeOf]

theorem element_paired (power : leaves.length = 2 ^ k) {index : Nat}
    (inside : index < leaves.length) :
    ∀ l < k, (index / 2 ^ l) ^^^ 1 < width leaves.length (0 + l) := by
  rw [power] at inside ⊢
  exact paired_two_pow (Nat.zero_add k) inside

def elementPath (sha256 : Digest) (leaves : List UInt64) (k index : Nat) : List Bytes :=
  copath (joinHash sha256.hash) (leafAt sha256 leaves) leaves.length 0 k index

theorem element_opens (power : leaves.length = 2 ^ k) {index : Nat}
    (inside : index < leaves.length) :
    HashPaths.climb (joinHash sha256.hash) index (leafAt sha256 leaves index)
        (elementPath sha256 leaves k index) =
      node (joinHash sha256.hash) (leafAt sha256 leaves) leaves.length k 0 := by
  have start : leafAt sha256 leaves index =
      node (joinHash sha256.hash) (leafAt sha256 leaves) (2 ^ k) 0 index := rfl
  rw [elementPath, power, start]
  exact node_opens (Nat.zero_add k) (power ▸ inside)

/-- Whatever reaches the root is the element with its own path: the string of an
    element is shorter than that of an inner node or of a step. -/
theorem element_bound (power : leaves.length = 2 ^ k) {index : Nat} (inside : index < leaves.length)
    {S : Set Bytes} (sealing : Sealed sha256.hash 32 (leafAt sha256 leaves) leaves.length S)
    (listed : ∀ leaf ∈ leaves, leafString leaf ∈ S) {value : UInt64} {path : List Bytes}
    (hashed : ∀ x ∈ pathStrings sha256 (leafString value) index path, x ∈ S)
    (reached : HashPaths.climb (joinHash sha256.hash) index (sha256.hash (leafString value)) path =
      node (joinHash sha256.hash) (leafAt sha256 leaves) leaves.length k 0) :
    value = leaves[index] ∧ path = elementPath sha256 leaves k index := by
  have spelled : ∀ i < leaves.length, leafAt sha256 leaves i =
      sha256.hash (leafString (leaves.getD i 0)) ∧ leafString (leaves.getD i 0) ∈ S := by
    intro i low
    rw [List.getD_eq_getElem _ _ low]
    exact ⟨by rw [leafAt, List.getD_eq_getElem _ _ low]; rfl, listed _ (List.getElem_mem low)⟩
  have known : leafString value ∈ S := hashed _ List.mem_cons_self
  rcases sealing.climb_opens spelled power inside known
    (fun x member => hashed x (List.mem_cons_of_mem _ member)) reached with
    ⟨_, same, siblings⟩ | ⟨h, _, same, _⟩ | ⟨first, last, _, _, _, member, _⟩
  · rw [List.getD_eq_getElem _ _ inside] at same
    exact ⟨leafString_injective same, siblings⟩
  · have sizes := congrArg List.length same
    rw [leafString_length, List.length_append, sealing.node_length, sealing.node_length] at sizes
    omega
  · obtain ⟨sibling, _, size⟩ := sealing.climbStrings_length (sha256.size _) _ member
    rw [leafString_length] at size
    omega

theorem element_path (power : leaves.length = 2 ^ k) {index : Nat} (inside : index < leaves.length) :
    getAuthenticationPath (treeOf sha256 leaves k) index =
      .ok (elementPath sha256 leaves k index) := by
  unfold getAuthenticationPath
  rw [treeOf, if_neg (Nat.not_le.mpr inside), dropLast_levels]
  exact pathAlong_copath (element_paired power inside)

theorem element_verifies (power : leaves.length = 2 ^ k) {index : Nat}
    (inside : index < leaves.length) :
    verifyPath sha256 (treeOf sha256 leaves k) index leaves[index]
      (elementPath sha256 leaves k index) = true := by
  have start : leafAt sha256 leaves index = leafHash sha256 (fieldBytes leaves[index]) := by
    rw [leafAt, List.getD_eq_getElem _ _ inside]
  rw [verifyPath, climb_same, ← start, element_opens power inside]
  exact beq_self_eq_true _

/-- Every element opens with its path, and with no other value or path. -/
theorem paths_complete_binding (sha256 : Digest) (leaves : List UInt64) (k : Nat)
    (power : leaves.length = 2 ^ k) (index : Nat) (inside : index < leaves.length) :
    ∃ tree path, newTree sha256 leaves = .ok tree ∧
      getAuthenticationPath tree index = .ok path ∧
      verifyPath sha256 tree index leaves[index] path = true ∧
      ∀ (value : UInt64) (other : List Bytes),
        Collisionless sha256 (treeStrings (leaves.map leafString) tree.layers ++
          pathStrings sha256 (leafString value) index other) →
        verifyPath sha256 tree index value other = true →
          value = leaves[index] ∧ other = path := by
  refine ⟨treeOf sha256 leaves k, elementPath sha256 leaves k index, newTree_levels power,
    element_path power inside, element_verifies power inside, ?_⟩
  intro value other collisionless accepted
  have reached := eq_of_beq accepted
  rw [climb_same] at reached
  apply element_bound power inside (sealed_levels (power ▸ rises_two_pow k)
    (fun i => sha256.size _) collisionless (List.subset_append_left _ _))
  · intro leaf member
    apply List.mem_append_left
    apply List.mem_append_left
    exact List.mem_map_of_mem member
  · intro x member
    exact List.mem_append_right _ member
  · exact reached

end Elements

def pairTree : MerkleTree :=
  ((newTree residue [5, 7]).toOption).getD ⟨0, [], []⟩

def pairPath : List Bytes := ((getAuthenticationPath pairTree 1).toOption).getD []

theorem pair_opens : Collisionless residue (treeStrings ([5, 7].map leafString)
      pairTree.layers ++ pathStrings residue (leafString 7) 1 pairPath) ∧
    ∃ tree path, newTree residue [5, 7] = .ok tree ∧ getAuthenticationPath tree 1 = .ok path ∧
      verifyPath residue tree 1 7 path = true ∧ ∀ (value : UInt64) (other : List Bytes),
        Collisionless residue (treeStrings ([5, 7].map leafString) tree.layers ++
          pathStrings residue (leafString value) 1 other) →
        verifyPath residue tree 1 value other = true → value = 7 ∧ other = path :=
  ⟨by decide +kernel, paths_complete_binding residue [5, 7] 1 rfl 1 (by decide)⟩

end CommitmentPaths
