import StatelessEthereum.CompactTrie

/- Where the walk along a path ends in a canonical trie, told from the set of
   its keys alone. A walk that stops at the first node below an exhausted path
   stops at more paths than there are keys. -/
namespace TrieWalk
open CompactTrie
variable {ι V : Type} [DecidableEq ι]

/-- The part of a trie below the node at which a walk ends. -/
def walk : Trie ι V → List ι → Option (Trie ι V)
  | .empty, _ => none
  | .leaf p v, k => if k = [] ∨ p = k then some (.leaf p v) else none
  | .ext p t, k =>
    if k = [] then some (.ext p t)
    else if p <+: k then walk t (k.drop p.length) else none
  | .branch cs v, [] => some (.branch cs v)
  | .branch cs _, i :: k => walk (cs i) k

/-- Leaves and branches end a walk with an answer, extensions do not. -/
def Answers : Trie ι V → Prop
  | .leaf _ _ | .branch _ _ => True
  | _ => False

def Ends (t : Trie ι V) (k : List ι) : Prop := ∃ u, walk t k = some u ∧ Answers u

/-- Two keys part right at the end of a path. -/
def Parts (D : List ι → Prop) (k : List ι) : Prop :=
  ∃ a b, D (k ++ a) ∧ D (k ++ b) ∧ a.head? ≠ b.head?

def Alone (D : List ι → Prop) (k : List ι) : Prop := ∃! a, D (k ++ a)

/-- A path that is no key and yet ends a walk with an answer: keys part there,
    or one key alone goes on from where it left all others. -/
def Strays (D : List ι → Prop) (k : List ι) : Prop :=
  Parts D k ∨ Alone D k ∧ (k = [] ∨ Parts D k.dropLast)

def keysOf (t : Trie ι V) (k : List ι) : Prop := lookup t k ≠ none

/- Prefixing all keys by a path. -/

omit [DecidableEq ι] in
theorem parts_below {D E : List ι → Prop} {p : List ι} (shift : ∀ k, D (p ++ k) ↔ E k)
    (k : List ι) : Parts D (p ++ k) ↔ Parts E k := by
  simp only [Parts, List.append_assoc, shift]

omit [DecidableEq ι] in
theorem alone_below {D E : List ι → Prop} {p : List ι} (shift : ∀ k, D (p ++ k) ↔ E k)
    (k : List ι) : Alone D (p ++ k) ↔ Alone E k := by
  simp only [Alone, List.append_assoc, shift]

omit [DecidableEq ι] in
theorem strays_below {D E : List ι → Prop} {p : List ι} (shift : ∀ k, D (p ++ k) ↔ E k)
    (k : List ι) (start : k = [] → Alone D (p ++ k) →
      (p ++ k = [] ∨ Parts D (p ++ k).dropLast)) : Strays D (p ++ k) ↔ Strays E k := by
  have two := parts_below shift k
  have one := alone_below shift k
  by_cases none : k = []
  · constructor
    · rintro (parts | ⟨alone, _⟩)
      · exact Or.inl (two.mp parts)
      · exact Or.inr ⟨one.mp alone, Or.inl none⟩
    · rintro (parts | ⟨alone, _⟩)
      · exact Or.inl (two.mpr parts)
      · exact Or.inr ⟨one.mpr alone, start none (one.mpr alone)⟩
  · have last : (p ++ k).dropLast = p ++ k.dropLast := List.dropLast_append_of_ne_nil none
    have some : p ++ k ≠ [] := by simp [none]
    simp only [Strays, two, one, last, parts_below shift, none, some]

omit [DecidableEq ι] in
theorem alone_not_parts {D : List ι → Prop} {k : List ι} (alone : Alone D k)
    (parts : Parts D k) : False := by
  obtain ⟨a, b, left, right, differ⟩ := parts
  have same := alone.unique left right
  exact differ (by rw [same])

theorem branch_parts {cs : ι → Trie ι V} {w : Option V} (valid : Canonical (.branch cs w)) :
    Parts (keysOf (.branch cs w)) [] := branch_keys_part valid

/- One case for each kind of node. -/

theorem leaf_ends (p : List ι) (v : V) (k : List ι) :
    Ends (.leaf p v) k ↔ keysOf (.leaf p v) k ∨ Strays (keysOf (.leaf p v)) k := by
  have key (q : List ι) : keysOf (.leaf p v) q ↔ p = q := by
    simp [keysOf, lookup]
  have single (q : List ι) : ¬ Parts (keysOf (.leaf p v)) q := by
    rintro ⟨a, b, left, right, differ⟩
    rw [key] at left right
    exact differ (by rw [List.append_cancel_left (left.symm.trans right)])
  constructor
  · rintro ⟨u, found, _⟩
    simp only [walk, Option.ite_none_right_eq_some] at found
    rcases found.1 with rfl | same
    · refine Or.inr (Or.inr ⟨⟨p, (key _).mpr rfl, ?_⟩, Or.inl rfl⟩)
      intro a member
      exact ((key _).mp member).symm
    · exact Or.inl ((key k).mpr same)
  · intro known
    refine ⟨.leaf p v, if_pos ?_, trivial⟩
    rcases known with same | parts | ⟨_, none | parts⟩
    · exact Or.inr ((key k).mp same)
    · exact absurd parts (single k)
    · exact Or.inl none
    · exact absurd parts (single _)

theorem ext_key {p : List ι} {t : Trie ι V} {q : List ι} (member : keysOf (.ext p t) q) :
    p <+: q ∧ keysOf t (q.drop p.length) := by
  simp only [keysOf, lookup] at member
  split at member
  · rename_i covered
    exact ⟨covered, member⟩
  · exact absurd rfl member

theorem ext_shift (p : List ι) (t : Trie ι V) (k : List ι) :
    keysOf (.ext p t) (p ++ k) ↔ keysOf t k := by
  simp [keysOf, lookup]

/-- Off its path an extension has no node, and no path strays there. -/
theorem ext_aside {p : List ι} {t : Trie ι V} (parting : Parts (keysOf t) []) {k : List ι}
    (aside : ¬ p <+: k) : ¬ (keysOf (.ext p t) k ∨ Strays (keysOf (.ext p t)) k) := by
  have split (q : List ι) (parts : Parts (keysOf (.ext p t)) q) : p <+: q := by
    obtain ⟨a, b, left, right, differ⟩ := parts
    exact prefix_of_parting (ext_key left).1 (ext_key right).1 differ
  rintro (member | parts | ⟨alone, _⟩)
  · exact aside (ext_key member).1
  · exact aside (split k parts)
  · obtain ⟨a, member, only⟩ := alone
    have above : k <+: p := by
      have either := List.prefix_or_prefix_of_prefix (ext_key member).1 (List.prefix_append k a)
      exact either.resolve_left aside
    obtain ⟨rest, rfl⟩ := above
    obtain ⟨b, c, left, right, differ⟩ := parting
    have first : keysOf (.ext (k ++ rest) t) (k ++ (rest ++ b)) := by
      rw [← List.append_assoc, ext_shift]
      exact left
    have second : keysOf (.ext (k ++ rest) t) (k ++ (rest ++ c)) := by
      rw [← List.append_assoc, ext_shift]
      exact right
    have same := (only _ first).trans (only _ second).symm
    exact differ (by rw [List.append_cancel_left same])

theorem ext_ends {p : List ι} {t : Trie ι V} (valid : Canonical (.ext p t))
    (ih : ∀ k, Ends t k ↔ keysOf t k ∨ Strays (keysOf t) k) (k : List ι) :
    Ends (.ext p t) k ↔ keysOf (.ext p t) k ∨ Strays (keysOf (.ext p t)) k := by
  obtain ⟨path, shape, below⟩ := valid
  have parting : Parts (keysOf t) [] := by
    cases t with
    | branch cs w => exact branch_parts below
    | _ => simp [IsBranch] at shape
  have shift := ext_shift p t
  by_cases covered : p <+: k
  · obtain ⟨rest, rfl⟩ := covered
    have some : p ++ rest ≠ [] := by simp [path]
    have same : Ends (.ext p t) (p ++ rest) ↔ Ends t rest := by
      simp only [Ends, walk, some, List.prefix_append, ↓reduceIte, List.drop_left]
    rw [same, ih, shift, strays_below shift]
    intro none alone
    rw [none] at alone
    exact absurd ((parts_below shift []).mpr parting) (alone_not_parts alone)
  · have off := ext_aside parting covered
    constructor
    · rintro ⟨u, found, answers⟩
      simp only [walk, covered, ↓reduceIte] at found
      split at found
      · cases found
        exact absurd answers id
      · simp at found
    · intro known
      exact absurd known off

theorem branch_ends {cs : ι → Trie ι V} {w : Option V} (valid : Canonical (.branch cs w))
    (ih : ∀ i k, Ends (cs i) k ↔ keysOf (cs i) k ∨ Strays (keysOf (cs i)) k) (k : List ι) :
    Ends (.branch cs w) k ↔ keysOf (.branch cs w) k ∨ Strays (keysOf (.branch cs w)) k := by
  have parting := branch_parts valid
  cases k with
  | nil =>
    constructor
    · intro _
      exact Or.inr (Or.inl parting)
    · intro _
      exact ⟨_, rfl, trivial⟩
  | cons i k =>
    have shift (q : List ι) : keysOf (.branch cs w) ([i] ++ q) ↔ keysOf (cs i) q := Iff.rfl
    have same : Ends (.branch cs w) ([i] ++ k) ↔ Ends (cs i) k := Iff.rfl
    rw [← List.singleton_append, same, ih, shift, strays_below shift]
    rintro rfl _
    exact Or.inr parting

theorem empty_ends (k : List ι) : ¬ Ends (.empty : Trie ι V) k ∧
    ¬ (keysOf (.empty : Trie ι V) k ∨ Strays (keysOf (.empty : Trie ι V)) k) := by
  have absent (q : List ι) : ¬ keysOf (.empty : Trie ι V) q := fun member => member rfl
  constructor
  · rintro ⟨u, found, _⟩
    simp [walk] at found
  · rintro (member | ⟨a, _, member, _⟩ | ⟨⟨a, member, _⟩, _⟩)
    · exact absent _ member
    · exact absent _ member
    · exact absent _ member

/-- A walk ends with an answer at the keys and where paths stray, nowhere else. -/
theorem ends_iff {t : Trie ι V} (valid : Canonical t) (k : List ι) :
    Ends t k ↔ keysOf t k ∨ Strays (keysOf t) k := by
  induction t generalizing k with
  | empty => exact iff_of_false (empty_ends k).1 (empty_ends k).2
  | leaf p v => exact leaf_ends p v k
  | ext p t ih => exact ext_ends valid (ih valid.2.2) k
  | branch cs w ih => exact branch_ends valid (fun i => ih i (valid.1 i)) k

theorem walk_occupied {t u : Trie ι V} {k : List ι} (ended : walk t k = some u) : u ≠ .empty := by
  induction t generalizing k with
  | empty => simp [walk] at ended
  | leaf p v =>
    simp only [walk, Option.ite_none_right_eq_some, Option.some.injEq] at ended
    rw [← ended.2]
    simp
  | ext p t ih =>
    simp only [walk] at ended
    split at ended
    · cases ended
      simp
    · rw [Option.ite_none_right_eq_some] at ended
      exact ih ended.2
  | branch cs w ih =>
    cases k with
    | nil =>
      cases ended
      simp
    | cons i k => exact ih i ended

def held : Trie ι V → Option V
  | .leaf _ v => some v
  | .branch _ w => w
  | _ => none

theorem walk_lookup {t : Trie ι V} (valid : Canonical t) {k : List ι} {v : V}
    (found : lookup t k = some v) : ∃ u, walk t k = some u ∧ held u = some v := by
  induction t generalizing k with
  | empty => simp [lookup] at found
  | leaf p w =>
    simp only [lookup, Option.ite_none_right_eq_some] at found
    exact ⟨_, if_pos (Or.inr found.1), found.2⟩
  | ext p t ih =>
    simp only [lookup, Option.ite_none_right_eq_some] at found
    obtain ⟨covered, found⟩ := found
    obtain ⟨u, walked, value⟩ := ih valid.2.2 found
    have some : k ≠ [] := by
      rintro rfl
      exact valid.1 (List.prefix_nil.mp covered)
    exact ⟨u, by simp only [walk, some, covered, ↓reduceIte, walked], value⟩
  | branch cs w ih =>
    cases k with
    | nil => exact ⟨_, rfl, found⟩
    | cons i k => exact ih i (valid.1 i) found

end TrieWalk
