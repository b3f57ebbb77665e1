import Mathlib.Data.Set.Function
import Mathlib.Data.Nat.Bitwise
import Mathlib.Tactic.Ring

/- Binary hash trees over any number of leaves, and the paths of siblings that
   lead from a node up to the root. A last node without a sibling moves up
   unchanged. -/
namespace HashPaths

section Shape
variable {ν : Type} (join : ν → ν → ν)

/-- The number of nodes on a level above `n` leaves. -/
def width (n : Nat) : Nat → Nat
  | 0 => n
  | h + 1 => (width n h + 1) / 2

def pairUp : List ν → List ν
  | [] => []
  | [last] => [last]
  | left :: right :: rest => join left right :: pairUp rest

/-- The climb from a node along its siblings; the low bits of the index tell the
    sides. -/
def climb : Nat → ν → List ν → ν
  | _, current, [] => current
  | i, current, sibling :: path =>
    climb (i / 2) (if i % 2 = 1 then join sibling current else join current sibling) path

variable (leaf : Nat → ν) (n : Nat)

def node : Nat → Nat → ν
  | 0, i => leaf i
  | h + 1, i =>
    if 2 * i + 1 < width n h then join (node h (2 * i)) (node h (2 * i + 1))
    else node h (2 * i)

def level (h : Nat) : List ν := (List.range (width n h)).map (node join leaf n h)

/-- The siblings on the way from node `i` of level `h` over `levels` levels. -/
def copath : Nat → Nat → Nat → List ν
  | _, 0, _ => []
  | h, levels + 1, i =>
    if i ^^^ 1 < width n h then node join leaf n h (i ^^^ 1) :: copath (h + 1) levels (i / 2)
    else copath (h + 1) levels (i / 2)

/-- A climb by the index `j` joins every sibling of node `i` on its side, or on
    the other side where that makes no difference. -/
def Agrees : Nat → Nat → Nat → Nat → Prop
  | _, 0, _, _ => True
  | h, levels + 1, j, i =>
    if i ^^^ 1 < width n h then
      (j % 2 = i % 2 ∨ node join leaf n h i = node join leaf n h (i ^^^ 1)) ∧
        Agrees (h + 1) levels (j / 2) (i / 2)
    else Agrees (h + 1) levels j (i / 2)

end Shape

/- The levels of a tree. -/
section Levels
variable {ν : Type} {join : ν → ν → ν} {leaf : Nat → ν} {n : Nat}

theorem width_halves (n h : Nat) : width n (h + 1) = (width n h + 1) / 2 := rfl

theorem width_pos {n : Nat} (some : 0 < n) (h : Nat) : 0 < width n h := by
  induction h with
  | zero => exact some
  | succ h ih =>
    rw [width_halves]
    omega

theorem width_two_pow (k h : Nat) (under : h ≤ k) : width (2 ^ k) h = 2 ^ (k - h) := by
  induction h with
  | zero => rfl
  | succ h ih =>
    have split : 2 ^ (k - h) = 2 * 2 ^ (k - (h + 1)) := by
      rw [← pow_succ']
      congr 1
      omega
    rw [width_halves, ih (by omega), split]
    omega

theorem inside_iff {h i : Nat} : i < width n h ↔ i * 2 ^ h < n := by
  induction h generalizing i with
  | zero => rw [width, pow_zero, Nat.mul_one]
  | succ h ih =>
    have doubled : i < width n (h + 1) ↔ 2 * i < width n h := by
      rw [width_halves]
      omega
    rw [doubled, ih, pow_succ', ← Nat.mul_assoc, Nat.mul_comm i 2]

/-- The level of the root: every level below it has two nodes or more. -/
structure Rises (n top : Nat) : Prop where
  wide : ∀ l < top, 1 < width n l
  single : width n top = 1

theorem rises_two_pow (k : Nat) : Rises (2 ^ k) k := by
  constructor
  · intro l low
    rw [width_two_pow k l (Nat.le_of_lt low)]
    exact Nat.one_lt_two_pow (by omega)
  · rw [width_two_pow k k Nat.le.refl, Nat.sub_self, pow_zero]

theorem width_above {top h : Nat} (rises : Rises n top) (above : top ≤ h) : width n h = 1 := by
  induction h, above using Nat.le_induction with
  | base => exact rises.single
  | succ h _ ih => rw [width_halves, ih]

theorem rises_unique {a b : Nat} (one : Rises n a) (two : Rises n b) : a = b := by
  rcases Nat.lt_trichotomy a b with low | same | high
  · have wide := two.wide a low
    rw [one.single] at wide
    omega
  · exact same
  · have wide := one.wide b high
    rw [two.single] at wide
    omega

theorem full_halves {h t : Nat} (full : (t + 1) * 2 ^ (h + 1) ≤ n) :
    2 * t + 1 < width n h ∧ (2 * t + 1) * 2 ^ h ≤ n := by
  have whole : (2 * t + 1) * 2 ^ h + 2 ^ h ≤ n := by
    calc (2 * t + 1) * 2 ^ h + 2 ^ h = (t + 1) * 2 ^ (h + 1) := by ring
      _ ≤ n := full
  have positive := Nat.two_pow_pos h
  rw [inside_iff]
  omega

theorem half_inside {h i : Nat} (inside : i < width n h) : i / 2 < width n (h + 1) := by
  rw [width_halves]
  omega

theorem inside_above {h i : Nat} (levels : Nat) (inside : i < width n h) :
    i / 2 ^ levels < width n (h + levels) := by
  induction levels with
  | zero => simpa using inside
  | succ levels ih =>
    rw [pow_succ, ← Nat.div_div_eq_div_mul]
    exact half_inside ih

theorem pairUp_range' (join : ν → ν → ν) (f : Nat → ν) (start m : Nat) :
    pairUp join ((List.range' (2 * start) m).map f) =
      (List.range' start ((m + 1) / 2)).map fun i =>
        if 2 * i + 1 < 2 * start + m then join (f (2 * i)) (f (2 * i + 1)) else f (2 * i) := by
  induction m using Nat.twoStepInduction generalizing start with
  | zero => rfl
  | one => simp [pairUp, List.range'_succ]
  | more m ih _ =>
    have half : (m + 2 + 1) / 2 = (m + 1) / 2 + 1 := by omega
    have inner : 2 * start + 1 < 2 * start + (m + 2) := by omega
    have rest := ih (start + 1)
    rw [show 2 * (start + 1) = 2 * start + 1 + 1 from rfl] at rest
    rw [half, List.range'_succ, List.range'_succ, List.range'_succ, List.map_cons, List.map_cons,
      List.map_cons, pairUp, rest, if_pos inner]
    congr 1
    apply List.map_congr_left
    intro i _
    rw [show 2 * start + 1 + 1 + m = 2 * start + (m + 2) by ring]

theorem pairUp_level (h : Nat) :
    pairUp join (level join leaf n h) = level join leaf n (h + 1) := by
  have pairs := pairUp_range' join (node join leaf n h) 0 (width n h)
  rw [Nat.mul_zero, Nat.zero_add, ← List.range_eq_range', ← List.range_eq_range'] at pairs
  exact pairs

theorem level_length (h : Nat) : (level join leaf n h).length = width n h := by
  simp [level]

theorem level_at {h i : Nat} (inside : i < width n h) :
    (level join leaf n h)[i]? = some (node join leaf n h i) := by
  simp [level, inside]

theorem level_none {h i : Nat} (outside : ¬ i < width n h) : (level join leaf n h)[i]? = none := by
  rw [List.getElem?_eq_none]
  rw [level_length]
  exact Nat.le_of_not_lt outside

theorem node_parent {h i : Nat} (inside : i < width n h) (paired : i ^^^ 1 < width n h) :
    node join leaf n (h + 1) (i / 2) =
      if i % 2 = 1 then join (node join leaf n h (i ^^^ 1)) (node join leaf n h i)
      else join (node join leaf n h i) (node join leaf n h (i ^^^ 1)) := by
  rcases Nat.even_or_odd' i with ⟨p, rfl | rfl⟩
  · have sibling : 2 * p ^^^ 1 = 2 * p + 1 := Nat.xor_one_of_even (even_two_mul p)
    have left : ¬ 2 * p % 2 = 1 := by omega
    have half : 2 * p / 2 = p := by omega
    rw [sibling] at paired
    rw [sibling, half, if_neg left, node, if_pos paired]
  · have sibling : (2 * p + 1) ^^^ 1 = 2 * p := Nat.xor_one_of_odd (odd_two_mul_add_one p)
    have right : (2 * p + 1) % 2 = 1 := by omega
    have half : (2 * p + 1) / 2 = p := by omega
    rw [sibling, half, if_pos right, node, if_pos inside]

theorem alone_even {h i : Nat} (inside : i < width n h) (lone : ¬ i ^^^ 1 < width n h) :
    i % 2 = 0 := by
  rcases Nat.even_or_odd' i with ⟨p, rfl | rfl⟩
  · omega
  · rw [Nat.xor_one_of_odd (odd_two_mul_add_one p)] at lone
    omega

theorem node_alone {h i : Nat} (inside : i < width n h) (lone : ¬ i ^^^ 1 < width n h) :
    node join leaf n (h + 1) (i / 2) = node join leaf n h i := by
  have even := alone_even inside lone
  have place : 2 * (i / 2) = i := by omega
  rw [Nat.xor_one_of_even (Nat.even_iff.mpr even)] at lone
  rw [node, place, if_neg lone]

theorem sibling_inside {p i w : Nat} (paired : 2 * p + 1 < w) : (2 * p + i % 2) ^^^ 1 < w := by
  rcases Nat.mod_two_eq_zero_or_one i with even | odd
  · rw [even, Nat.add_zero, Nat.xor_one_of_even (even_two_mul p)]
    exact paired
  · rw [odd, Nat.xor_one_of_odd (odd_two_mul_add_one p)]
    omega

theorem both_inside {i w : Nat} (inside : i < w) (paired : i ^^^ 1 < w) : 2 * (i / 2) + 1 < w := by
  rcases Nat.even_or_odd' i with ⟨p, rfl | rfl⟩
  · rw [Nat.xor_one_of_even (even_two_mul p)] at paired
    omega
  · omega

theorem other_side {i j : Nat} (side : ¬ j % 2 = i % 2) : 2 * (i / 2) + j % 2 = i ^^^ 1 := by
  rcases Nat.even_or_odd' i with ⟨p, rfl | rfl⟩
  · rw [Nat.xor_one_of_even (even_two_mul p)]
    omega
  · rw [Nat.xor_one_of_odd (odd_two_mul_add_one p)]
    omega

theorem climb_append (i : Nat) (current : ν) (first last : List ν) :
    climb join i current (first ++ last) =
      climb join (i / 2 ^ first.length) (climb join i current first) last := by
  induction first generalizing i current with
  | nil => simp [climb]
  | cons sibling first ih =>
    rw [List.cons_append, climb, climb, ih, List.length_cons, Nat.div_div_eq_div_mul, pow_succ']

theorem climb_copath {h levels j i : Nat} (inside : i < width n h)
    (agrees : Agrees join leaf n h levels j i) :
    climb join j (node join leaf n h i) (copath join leaf n h levels i) =
      node join leaf n (h + levels) (i / 2 ^ levels) := by
  induction levels generalizing h j i with
  | zero => simp [climb, copath]
  | succ levels ih =>
    have above : i / 2 ^ (levels + 1) = i / 2 / 2 ^ levels := by
      rw [Nat.div_div_eq_div_mul, pow_succ']
    have up : h + (levels + 1) = h + 1 + levels := by omega
    unfold Agrees at agrees
    unfold copath
    rw [above, up]
    split at agrees
    · rename_i paired
      obtain ⟨side, agrees⟩ := agrees
      rw [if_pos paired, climb, ← ih (half_inside inside) agrees, node_parent inside paired]
      rcases side with same | same
      · rw [same]
      · rw [same, ite_self, ite_self]
    · rename_i lone
      rw [if_neg lone, ← ih (half_inside inside) agrees, node_alone inside lone]

theorem climb_mod (i : Nat) (current : ν) (path : List ν) :
    climb join (i % 2 ^ path.length) current path = climb join i current path := by
  induction path generalizing i current with
  | nil => rfl
  | cons sibling path ih =>
    have half : i % 2 ^ (path.length + 1) / 2 = i / 2 % 2 ^ path.length := by
      rw [pow_succ', Nat.mod_mul_right_div_self]
    have low : i % 2 ^ (path.length + 1) % 2 = i % 2 :=
      Nat.mod_mod_of_dvd i (Dvd.intro_left (2 ^ path.length) rfl)
    rw [List.length_cons, climb, climb, half, low, ih]

/-- In a tree of `2 ^ k` leaves every node below the root has a sibling. -/
theorem paired_two_pow {h m k i : Nat} (height : h + m = k) (inside : i < 2 ^ m) :
    ∀ l < m, (i / 2 ^ l) ^^^ 1 < width (2 ^ k) (h + l) := by
  intro l low
  obtain ⟨gap, rest⟩ : ∃ gap, m = l + (gap + 1) := ⟨m - l - 1, by omega⟩
  have wide : i / 2 ^ l < 2 * 2 ^ gap := by
    rw [rest, pow_add, pow_succ'] at inside
    exact Nat.div_lt_of_lt_mul inside
  have level : k - (h + l) = gap + 1 := by omega
  rw [width_two_pow k (h + l) (by omega), level, pow_succ']
  have place : i / 2 ^ l = 2 * (i / 2 ^ l / 2) + i / 2 ^ l % 2 := by omega
  rw [place]
  apply sibling_inside
  omega

/-- What holds along a path holds along its rest. -/
theorem paired_later {h levels i : Nat}
    (paired : ∀ l < levels + 1, (i / 2 ^ l) ^^^ 1 < width n (h + l)) :
    i ^^^ 1 < width n h ∧ ∀ l < levels, (i / 2 / 2 ^ l) ^^^ 1 < width n (h + 1 + l) := by
  constructor
  · have here := paired 0 (Nat.succ_pos levels)
    rwa [pow_zero, Nat.div_one, Nat.add_zero] at here
  · intro l low
    have next := paired (l + 1) (Nat.succ_lt_succ low)
    rwa [pow_succ', ← Nat.div_div_eq_div_mul, Nat.add_left_comm h l 1, Nat.add_comm l] at next

/-- The sides agree wherever every node on the way has a sibling. -/
theorem agrees_of_paired {h levels i : Nat}
    (paired : ∀ l < levels, (i / 2 ^ l) ^^^ 1 < width n (h + l)) :
    Agrees join leaf n h levels i i := by
  induction levels generalizing h i with
  | zero => trivial
  | succ levels ih =>
    obtain ⟨here, later⟩ := paired_later paired
    unfold Agrees
    rw [if_pos here]
    exact ⟨Or.inl rfl, ih later⟩

theorem copath_length {h levels i : Nat}
    (paired : ∀ l < levels, (i / 2 ^ l) ^^^ 1 < width n (h + l)) :
    (copath join leaf n h levels i).length = levels := by
  induction levels generalizing h i with
  | zero => rfl
  | succ levels ih =>
    obtain ⟨here, later⟩ := paired_later paired
    rw [copath, if_pos here, List.length_cons, ih later]

/-- Every node of a tree of `2 ^ k` leaves reaches the root by its siblings. -/
theorem node_opens {k h m i : Nat} (height : h + m = k) (inside : i < 2 ^ m) :
    climb join i (node join leaf (2 ^ k) h i) (copath join leaf (2 ^ k) h m i) =
      node join leaf (2 ^ k) k 0 := by
  have held : i < width (2 ^ k) h := by
    rw [width_two_pow k h (by omega), ← height, Nat.add_sub_cancel_left]
    exact inside
  rw [climb_copath held (agrees_of_paired (paired_two_pow height inside)), height,
    Nat.div_eq_of_lt inside]

end Levels

/- Nodes that are hashes of their two children, one after the other. -/
section Hashes
variable {β : Type} (hash : List β → List β)

def joinHash (left right : List β) : List β := hash (left ++ right)

def stepString (i : Nat) (current sibling : List β) : List β :=
  if i % 2 = 1 then sibling ++ current else current ++ sibling

def climbStrings : Nat → List β → List (List β) → List (List β)
  | _, _, [] => []
  | i, current, sibling :: path =>
    stepString i current sibling ::
      climbStrings (i / 2) (hash (stepString i current sibling)) path

/-- Equal hashes of the strings in `S` come from equal strings; the strings of
    the tree are among them, and all its nodes are equally long. -/
structure Sealed (size : Nat) (leaf : Nat → List β) (n : Nat) (S : Set (List β)) : Prop where
  collisionless : Set.InjOn hash S
  sized : ∀ data, (hash data).length = size
  leaves : ∀ i, (leaf i).length = size
  built : ∀ h i, 2 * i + 1 < width n h →
    node (joinHash hash) leaf n h (2 * i) ++ node (joinHash hash) leaf n h (2 * i + 1) ∈ S

variable {hash} {size : Nat} {leaf : Nat → List β} {n : Nat} {S : Set (List β)}

theorem joinHash_step (i : Nat) (current sibling : List β) :
    (if i % 2 = 1 then joinHash hash sibling current else joinHash hash current sibling) =
      hash (stepString i current sibling) := by
  unfold stepString joinHash
  split <;> rfl

theorem climb_cons (i : Nat) (current sibling : List β) (path : List (List β)) :
    climb (joinHash hash) i current (sibling :: path) =
      climb (joinHash hash) (i / 2) (hash (stepString i current sibling)) path := by
  rw [climb, joinHash_step]

theorem climbStrings_append (i : Nat) (current : List β) (first last : List (List β)) :
    climbStrings hash i current (first ++ last) = climbStrings hash i current first ++
      climbStrings hash (i / 2 ^ first.length) (climb (joinHash hash) i current first) last := by
  induction first generalizing i current with
  | nil => simp [climbStrings, climb]
  | cons sibling first ih =>
    rw [List.cons_append, climbStrings, climbStrings, ih, List.length_cons, climb_cons,
      Nat.div_div_eq_div_mul, pow_succ', List.cons_append]

theorem climb_hash {i : Nat} {current : List β} {path : List (List β)} (steps : path ≠ []) :
    ∃ x ∈ climbStrings hash i current path, climb (joinHash hash) i current path = hash x := by
  induction path generalizing i current with
  | nil => exact absurd rfl steps
  | cons sibling path ih =>
    rw [climb_cons, climbStrings]
    cases path with
    | nil => exact ⟨_, List.mem_cons_self, rfl⟩
    | cons next path =>
      have long : next :: path ≠ [] := List.cons_ne_nil next path
      obtain ⟨x, member, same⟩ := @ih (i / 2) (hash (stepString i current sibling)) long
      exact ⟨x, List.mem_cons_of_mem _ member, same⟩

theorem step_parts {i : Nat} {current sibling left right : List β}
    (same : stepString i current sibling = left ++ right) (leftSize : current.length = left.length)
    (rightSize : current.length = right.length) :
    if i % 2 = 1 then sibling = left ∧ current = right else current = left ∧ sibling = right := by
  unfold stepString at same
  split at same
  · rename_i right
    rw [if_pos right]
    exact List.append_inj' same rightSize
  · rename_i left
    rw [if_neg left]
    exact List.append_inj same leftSize

namespace Sealed
variable (sealing : Sealed hash size leaf n S)
include sealing

theorem node_length (h i : Nat) : (node (joinHash hash) leaf n h i).length = size := by
  induction h generalizing i with
  | zero => exact sealing.leaves i
  | succ h ih =>
    unfold node
    split
    · exact sealing.sized _
    · exact ih _

theorem step_down {h p i : Nat} {current sibling : List β} (paired : 2 * p + 1 < width n h)
    (sized : current.length = size) (hashed : stepString i current sibling ∈ S)
    (same : hash (stepString i current sibling) = node (joinHash hash) leaf n (h + 1) p) :
    current = node (joinHash hash) leaf n h (2 * p + i % 2) ∧
      sibling = node (joinHash hash) leaf n h ((2 * p + i % 2) ^^^ 1) := by
  rw [node, if_pos paired] at same
  have strings := sealing.collisionless hashed (sealing.built h p paired) same
  have parts := step_parts strings (by rw [sized, sealing.node_length])
    (by rw [sized, sealing.node_length])
  rcases Nat.mod_two_eq_zero_or_one i with even | odd
  · have sibling : 2 * p ^^^ 1 = 2 * p + 1 := Nat.xor_one_of_even (even_two_mul p)
    rw [even, if_neg Nat.zero_ne_one] at parts
    rw [even, Nat.add_zero, sibling]
    exact parts
  · have sibling : (2 * p + 1) ^^^ 1 = 2 * p := Nat.xor_one_of_odd (odd_two_mul_add_one p)
    rw [odd, if_pos rfl] at parts
    rw [odd, sibling]
    exact parts.symm

/-- A climb to a node whose leaves are all there passes the nodes below it, by the
    low bits of the index. By induction on the path, from the node down. -/
theorem climb_down {h t i : Nat} {current : List β} {path : List (List β)}
    (full : (t + 1) * 2 ^ path.length ≤ width n h) (sized : current.length = size)
    (hashed : ∀ x ∈ climbStrings hash i current path, x ∈ S)
    (reached : climb (joinHash hash) i current path =
      node (joinHash hash) leaf n (h + path.length) t) :
    current = node (joinHash hash) leaf n h (t * 2 ^ path.length + i % 2 ^ path.length) ∧
      path = copath (joinHash hash) leaf n h path.length
        (t * 2 ^ path.length + i % 2 ^ path.length) := by
  induction path generalizing h i current with
  | nil => simpa [climb, copath, Nat.mod_one] using reached
  | cons sibling path ih =>
    let p := t * 2 ^ path.length + i / 2 % 2 ^ path.length
    have place : t * 2 ^ (sibling :: path).length + i % 2 ^ (sibling :: path).length =
        2 * p + i % 2 := by
      simp only [p, List.length_cons, pow_succ']
      rw [Nat.mod_mul]
      ring
    have up : h + (sibling :: path).length = h + 1 + path.length := by
      simp only [List.length_cons]
      omega
    have wide : 2 * ((t + 1) * 2 ^ path.length) ≤ width n h := by
      rw [List.length_cons, pow_succ'] at full
      calc 2 * ((t + 1) * 2 ^ path.length) = (t + 1) * (2 * 2 ^ path.length) := by ring
        _ ≤ width n h := full
    have paired : 2 * p + 1 < width n h := by
      have low : i / 2 % 2 ^ path.length < 2 ^ path.length := Nat.mod_lt _ (Nat.two_pow_pos _)
      have room : p + 1 ≤ (t + 1) * 2 ^ path.length := by
        rw [Nat.succ_mul]
        omega
      omega
    have above : (t + 1) * 2 ^ path.length ≤ width n (h + 1) := by
      rw [width_halves]
      omega
    rw [climb_cons, up] at reached
    rw [climbStrings] at hashed
    obtain ⟨same, rest⟩ := ih above (sealing.sized _)
      (fun x member => hashed x (List.mem_cons_of_mem _ member)) reached
    obtain ⟨here, beside⟩ := sealing.step_down paired sized (hashed _ List.mem_cons_self) same
    rw [place]
    constructor
    · exact here
    · have half : (2 * p + i % 2) / 2 = p := by omega
      rw [List.length_cons, copath, if_pos (sibling_inside paired), half, ← beside, ← rest]

theorem climb_length {i : Nat} {current : List β} {path : List (List β)}
    (sized : current.length = size) :
    (climb (joinHash hash) i current path).length = size := by
  by_cases steps : path = []
  · rw [steps]
    exact sized
  · obtain ⟨x, _, same⟩ : ∃ x ∈ climbStrings hash i current path,
        climb (joinHash hash) i current path = hash x := climb_hash steps
    rw [same]
    exact sealing.sized x

/-- What reaches the root of a tree with `2 ^ k` leaves: a short path starts from
    an inner node, and a long one passes a leaf. -/
theorem climb_root {k i : Nat} {current : List β} {path : List (List β)} (power : n = 2 ^ k)
    (sized : current.length = size) (hashed : ∀ x ∈ climbStrings hash i current path, x ∈ S)
    (reached : climb (joinHash hash) i current path = node (joinHash hash) leaf n k 0) :
    if path.length ≤ k then
      current = node (joinHash hash) leaf n (k - path.length) (i % 2 ^ path.length) ∧
        path = copath (joinHash hash) leaf n (k - path.length) path.length (i % 2 ^ path.length)
    else
      climb (joinHash hash) i current (path.take (path.length - k)) =
          node (joinHash hash) leaf n 0 (i / 2 ^ (path.length - k) % 2 ^ k) ∧
        path.drop (path.length - k) =
          copath (joinHash hash) leaf n 0 k (i / 2 ^ (path.length - k) % 2 ^ k) := by
  by_cases short : path.length ≤ k
  · rw [if_pos short]
    have full : (0 + 1) * 2 ^ path.length ≤ width n (k - path.length) := by
      rw [power, width_two_pow k _ (Nat.sub_le k _), Nat.sub_sub_self short, Nat.zero_add,
        Nat.one_mul]
    have bottom : k - path.length + path.length = k := Nat.sub_add_cancel short
    rw [← bottom] at reached
    have down := sealing.climb_down full sized hashed reached
    rw [Nat.zero_mul, Nat.zero_add] at down
    exact down
  · rw [if_neg short]
    let first := path.take (path.length - k)
    let last := path.drop (path.length - k)
    have firstSize : first.length = path.length - k := by
      simp only [first, List.length_take]
      omega
    have lastSize : last.length = k := by
      simp only [last, List.length_drop]
      omega
    have parts : path = first ++ last := (List.take_append_drop _ path).symm
    rw [parts, climb_append, firstSize] at reached
    rw [parts, climbStrings_append, firstSize] at hashed
    have full : (0 + 1) * 2 ^ last.length ≤ width n 0 := by
      rw [lastSize, power, Nat.zero_add, Nat.one_mul]
      exact Nat.le_refl _
    have bottom : 0 + last.length = k := by rw [Nat.zero_add, lastSize]
    have rising := reached.trans (congrArg (fun h => node (joinHash hash) leaf n h 0) bottom.symm)
    have down := sealing.climb_down full (sealing.climb_length sized)
      (fun x member => hashed x (List.mem_append_right _ member)) rising
    rw [Nat.zero_mul, Nat.zero_add, lastSize] at down
    exact down

/-- Along the siblings of a node nothing but the node itself leads up, and that
    only where the sides agree. -/
theorem climb_copath_iff {h levels j i : Nat} {current : List β} (inside : i < width n h)
    (sized : current.length = size)
    (hashed : ∀ x ∈ climbStrings hash j current (copath (joinHash hash) leaf n h levels i), x ∈ S) :
    climb (joinHash hash) j current (copath (joinHash hash) leaf n h levels i) =
        node (joinHash hash) leaf n (h + levels) (i / 2 ^ levels) ↔
      current = node (joinHash hash) leaf n h i ∧ Agrees (joinHash hash) leaf n h levels j i := by
  constructor
  · intro reached
    induction levels generalizing h j i current with
    | zero => simpa [climb, copath, Agrees] using reached
    | succ levels ih =>
      have above : i / 2 ^ (levels + 1) = i / 2 / 2 ^ levels := by
        rw [Nat.div_div_eq_div_mul, pow_succ']
      have up : h + (levels + 1) = h + 1 + levels := by omega
      rw [above, up] at reached
      unfold Agrees
      unfold copath at reached hashed
      by_cases paired : i ^^^ 1 < width n h
      · rw [if_pos paired] at reached hashed ⊢
        rw [climb_cons] at reached
        rw [climbStrings] at hashed
        obtain ⟨same, agrees⟩ := ih (half_inside inside) (sealing.sized _)
          (fun x member => hashed x (List.mem_cons_of_mem _ member)) reached
        obtain ⟨here, beside⟩ := sealing.step_down (both_inside inside paired) sized
          (hashed _ List.mem_cons_self) same
        by_cases side : j % 2 = i % 2
        · have place : 2 * (i / 2) + j % 2 = i := by omega
          rw [place] at here
          exact ⟨here, Or.inl side, agrees⟩
        · rw [other_side side] at here beside
          rw [Nat.xor_assoc, Nat.xor_self, Nat.xor_zero] at beside
          exact ⟨here.trans beside, Or.inr beside.symm, agrees⟩
      · rw [if_neg paired] at reached hashed ⊢
        obtain ⟨same, agrees⟩ := ih (half_inside inside) sized hashed reached
        rw [node_alone inside paired] at same
        exact ⟨same, agrees⟩
  · intro known
    rw [known.1]
    exact climb_copath inside known.2

theorem climbStrings_length {i : Nat} {current : List β} {path : List (List β)}
    (sized : current.length = size) :
    ∀ x ∈ climbStrings hash i current path, ∃ sibling ∈ path, x.length = size + sibling.length := by
  induction path generalizing i current with
  | nil => simp [climbStrings]
  | cons sibling path ih =>
    intro x member
    rcases List.mem_cons.mp member with rfl | later
    · refine ⟨sibling, List.mem_cons_self, ?_⟩
      unfold stepString
      split
      · rw [List.length_append, sized, Nat.add_comm]
      · rw [List.length_append, sized]
    · obtain ⟨other, inside, long⟩ := ih (sealing.sized _) x later
      exact ⟨other, List.mem_cons_of_mem _ inside, long⟩

section Leaves
variable {text : Nat → List β} (spelled : ∀ i < n, leaf i = hash (text i) ∧ text i ∈ S)
include spelled

/-- The string that a path to the root starts from: the leaf at the index, the
    children of an inner node, or one that leads to a leaf first. -/
theorem climb_opens {k i : Nat} {start : List β} {path : List (List β)} (power : n = 2 ^ k)
    (inside : i < n) (known : start ∈ S)
    (hashed : ∀ x ∈ climbStrings hash i (hash start) path, x ∈ S)
    (reached : climb (joinHash hash) i (hash start) path = node (joinHash hash) leaf n k 0) :
    (path.length = k ∧ start = text i ∧ path = copath (joinHash hash) leaf n 0 k i) ∨
    (∃ h, path.length + (h + 1) = k ∧
      start = node (joinHash hash) leaf n h (2 * (i % 2 ^ path.length)) ++
        node (joinHash hash) leaf n h (2 * (i % 2 ^ path.length) + 1) ∧
      path = copath (joinHash hash) leaf n (h + 1) path.length (i % 2 ^ path.length)) ∨
    (∃ first last, path = first ++ last ∧ first ≠ [] ∧ last.length = k ∧
      text (i / 2 ^ first.length % 2 ^ k) ∈ climbStrings hash i (hash start) first ∧
      climb (joinHash hash) i (hash start) first = hash (text (i / 2 ^ first.length % 2 ^ k)) ∧
      last = copath (joinHash hash) leaf n 0 k (i / 2 ^ first.length % 2 ^ k)) := by
  have down := sealing.climb_root power (sealing.sized start) hashed reached
  by_cases short : path.length ≤ k
  · rw [if_pos short] at down
    obtain ⟨same, siblings⟩ := down
    by_cases whole : path.length = k
    · rw [whole, Nat.sub_self, Nat.mod_eq_of_lt (power ▸ inside)] at same siblings
      obtain ⟨spelling, listed⟩ := spelled i inside
      rw [node, spelling] at same
      exact Or.inl ⟨whole, sealing.collisionless known listed same, siblings⟩
    · obtain ⟨h, gap⟩ : ∃ h, k - path.length = h + 1 := ⟨k - path.length - 1, by omega⟩
      have low : i % 2 ^ path.length < 2 ^ path.length := Nat.mod_lt _ (Nat.two_pow_pos _)
      have full : (i % 2 ^ path.length + 1) * 2 ^ (h + 1) ≤ n := by
        rw [power, ← gap]
        calc (i % 2 ^ path.length + 1) * 2 ^ (k - path.length)
            ≤ 2 ^ path.length * 2 ^ (k - path.length) := Nat.mul_le_mul_right _ low
          _ = 2 ^ k := by rw [← pow_add, Nat.add_sub_cancel' short]
      have paired := (full_halves full).1
      rw [gap] at same siblings
      rw [node, if_pos paired] at same
      have strings := sealing.collisionless known (sealing.built h _ paired) same
      exact Or.inr (Or.inl ⟨h, by omega, strings, siblings⟩)
  · rw [if_neg short] at down
    obtain ⟨same, siblings⟩ := down
    let first := path.take (path.length - k)
    let last := path.drop (path.length - k)
    have parts : path = first ++ last := (List.take_append_drop _ path).symm
    have firstSize : first.length = path.length - k := by
      simp only [first, List.length_take]
      omega
    have lastSize : last.length = k := by
      simp only [last, List.length_drop]
      omega
    have steps : first ≠ [] := by
      intro none
      rw [none, List.length_nil] at firstSize
      omega
    have low : i / 2 ^ first.length % 2 ^ k < n := by
      rw [power]
      exact Nat.mod_lt _ (Nat.two_pow_pos k)
    obtain ⟨spelling, listed⟩ := spelled _ low
    have place : i / 2 ^ (path.length - k) = i / 2 ^ first.length := by rw [firstSize]
    rw [place, node, spelling] at same
    rw [place] at siblings
    obtain ⟨x, member, ended⟩ : ∃ x ∈ climbStrings hash i (hash start) first,
      climb (joinHash hash) i (hash start) first = hash x := climb_hash steps
    have inPath : x ∈ climbStrings hash i (hash start) path := by
      rw [parts, climbStrings_append]
      exact List.mem_append_left _ member
    have strings := sealing.collisionless listed (hashed x inPath) (same.symm.trans ended)
    rw [strings.symm] at member
    exact Or.inr (Or.inr ⟨first, last, parts, steps, lastSize, member, same, siblings⟩)

section Apart
variable (apart : ∀ i < n, (text i).length ≠ 2 * size)
include apart

/-- A full node of a higher level is no node of a lower one, since the leftmost
    descent from it is longer. -/
theorem lower_differs {g h i t : Nat} (lower : g < h) (inside : i < width n g)
    (full : (t + 1) * 2 ^ h ≤ n) :
    node (joinHash hash) leaf n g i ≠ node (joinHash hash) leaf n h t := by
  intro same
  induction g generalizing h i t with
  | zero =>
    obtain ⟨h, rfl⟩ := Nat.exists_eq_succ_of_ne_zero (Nat.ne_of_gt lower)
    have paired := (full_halves full).1
    obtain ⟨hashed, known⟩ := spelled i inside
    rw [node, node, if_pos paired, hashed] at same
    have strings := sealing.collisionless known (sealing.built h t paired) same
    have sizes := congrArg List.length strings
    rw [List.length_append, sealing.node_length, sealing.node_length] at sizes
    have other := apart i inside
    omega
  | succ g ih =>
    obtain ⟨h, rfl⟩ := Nat.exists_eq_succ_of_ne_zero (Nat.ne_zero_of_lt lower)
    have first : 2 * i < width n g := by
      rw [width_halves] at inside
      omega
    rw [node] at same
    split at same
    · rename_i low
      obtain ⟨high, half⟩ := full_halves full
      rw [node, if_pos high] at same
      have strings := sealing.collisionless (sealing.built g i low) (sealing.built h t high) same
      have sizes := (sealing.node_length g (2 * i)).trans (sealing.node_length h (2 * t)).symm
      exact ih (Nat.lt_of_succ_lt_succ lower) first half (List.append_inj strings sizes).1
    · exact ih (Nat.lt_of_succ_lt lower) first full same

/-- Once a last node has moved up alone, the index of the climb lags behind. -/
theorem promoted_disagrees {g h levels i j p : Nat} (lower : g < h) (below : p < width n g)
    (promoted : node (joinHash hash) leaf n h i = node (joinHash hash) leaf n g p)
    (last : i + 1 = width n h) (wide : 1 < width n h) (top : width n (h + levels) = 1)
    (even : j % 2 = 0) : ¬ Agrees (joinHash hash) leaf n h levels j i := by
  induction levels generalizing h i with
  | zero =>
    rw [Nat.add_zero] at top
    omega
  | succ levels ih =>
    have inside : i < width n h := by omega
    unfold Agrees
    by_cases paired : i ^^^ 1 < width n h
    · have odd : i % 2 = 1 := by
        rcases Nat.even_or_odd' i with ⟨q, rfl | rfl⟩
        · rw [Nat.xor_one_of_even (even_two_mul q)] at paired
          omega
        · omega
      have sibling : i ^^^ 1 = i - 1 := Nat.xor_one_of_odd (Nat.odd_iff.mpr odd)
      rw [if_pos paired, sibling]
      rintro ⟨side | same, _⟩
      · omega
      · have full : (i - 1 + 1) * 2 ^ h ≤ n := by
          rw [Nat.sub_add_cancel (by omega)]
          exact Nat.le_of_lt (inside_iff.mp inside)
        exact sealing.lower_differs spelled apart lower below full (promoted.symm.trans same)
    · have low := alone_even inside paired
      have above : width n (h + 1) = i / 2 + 1 := by
        rw [width_halves]
        omega
      have up : h + 1 + levels = h + (levels + 1) := by omega
      have rises : g < h + 1 := by omega
      rw [if_neg paired]
      apply ih rises ((node_alone inside paired).trans promoted)
      · omega
      · omega
      · rw [up]
        exact top

/-- So the climb agrees with the tree only where every node has a sibling. -/
theorem agrees_paired {h levels i : Nat} (inside : i < width n h)
    (wide : ∀ l < levels, 1 < width n (h + l)) (top : width n (h + levels) = 1)
    (agrees : Agrees (joinHash hash) leaf n h levels i i) :
    ∀ l < levels, (i / 2 ^ l) ^^^ 1 < width n (h + l) := by
  induction levels generalizing h i with
  | zero => simp
  | succ levels ih =>
    have up : h + 1 + levels = h + (levels + 1) := by omega
    have broad : 1 < width n h := wide 0 (Nat.succ_pos levels)
    rw [← up] at top
    unfold Agrees at agrees
    split at agrees
    · rename_i paired
      have later : ∀ l < levels, 1 < width n (h + 1 + l) := by
        intro l low
        have next := wide (l + 1) (Nat.succ_lt_succ low)
        rwa [show h + (l + 1) = h + 1 + l by omega] at next
      intro l low
      cases l with
      | zero =>
        rw [pow_zero, Nat.div_one]
        exact paired
      | succ l =>
        have rest := ih (half_inside inside) later top agrees.2 l (Nat.lt_of_succ_lt_succ low)
        rw [pow_succ', ← Nat.div_div_eq_div_mul, show h + (l + 1) = h + 1 + l by omega]
        exact rest
    · rename_i lone
      have even := alone_even inside lone
      have sibling : i ^^^ 1 = i + 1 := Nat.xor_one_of_even (Nat.even_iff.mpr even)
      have above : width n (h + 1) = i / 2 + 1 := by
        rw [width_halves]
        omega
      have behind := sealing.promoted_disagrees spelled apart (Nat.lt_add_one h) inside
        (node_alone inside lone) above.symm (by omega) top even
      exact absurd agrees behind

end Apart
end Leaves

end Sealed
end Hashes

end HashPaths
