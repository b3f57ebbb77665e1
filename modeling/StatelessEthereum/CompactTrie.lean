import Mathlib.Data.List.Infix
import Mathlib.Logic.Function.Basic

/- Path-compressed tries over an arbitrary digit type, as finite maps. A trie
   is canonical when no shorter one answers the same lookups; canonical tries
   are determined by what they answer. -/
namespace CompactTrie
set_option linter.unusedSectionVars false
variable {ι V : Type} [DecidableEq ι]

inductive Trie (ι V : Type) where
  | empty : Trie ι V
  | leaf : List ι → V → Trie ι V
  | ext : List ι → Trie ι V → Trie ι V
  | branch : (ι → Trie ι V) → Option V → Trie ι V

def common : List ι → List ι → List ι
  | a :: as, b :: bs => if a = b then a :: common as bs else []
  | _, _ => []

def place (p : List ι) (t : Trie ι V) : Trie ι V := if p = [] then t else .ext p t

/-- Hang what grows below the rest of a path into the slot of its first digit. -/
def attach (cs : ι → Trie ι V) (p : List ι) (grow : List ι → Trie ι V) : ι → Trie ι V :=
  match p with
  | [] => cs
  | i :: rest => Function.update cs i (grow rest)

/-- A branch over two paths that part at once: a new leaf, and older content. -/
def fork (a : List ι) (v : V) (b : List ι) (w : Option V) (grow : List ι → Trie ι V) : Trie ι V :=
  .branch (attach (attach (fun _ => .empty) a fun rest => .leaf rest v) b grow)
    (if a = [] then some v else if b = [] then w else none)

def lookup : Trie ι V → List ι → Option V
  | .empty, _ => none
  | .leaf p v, k => if p = k then some v else none
  | .ext p t, k => if p <+: k then lookup t (k.drop p.length) else none
  | .branch _ v, [] => v
  | .branch cs _, i :: k => lookup (cs i) k

/-- What a slot answers when only older content with path `b` hangs there. -/
def slotLookup (b : List ι) (grow : List ι → Trie ι V) (i : ι) (k : List ι) : Option V :=
  match b with
  | [] => none
  | j :: rest => if i = j then lookup (grow rest) k else none

def insert : Trie ι V → List ι → V → Trie ι V
  | .empty, k, v => .leaf k v
  | .leaf p w, k, v =>
    if p = k then .leaf p v
    else
      let c := common k p
      place c (fork (k.drop c.length) v (p.drop c.length) (some w) fun rest => .leaf rest w)
  | .ext p t, k, v =>
    if p <+: k then .ext p (insert t (k.drop p.length) v)
    else
      let c := common k p
      place c (fork (k.drop c.length) v (p.drop c.length) none fun rest => place rest t)
  | .branch cs _, [], v => .branch cs (some v)
  | .branch cs w, i :: k, v => .branch (Function.update cs i (insert (cs i) k v)) w

/-- The later of several values under a key wins. -/
def insertAll (t : Trie ι V) (ops : List (List ι × V)) : Trie ι V :=
  ops.foldl (fun s op => insert s op.1 op.2) t

def IsBranch : Trie ι V → Prop
  | .branch _ _ => True
  | _ => False

def TwoOccupied (cs : ι → Trie ι V) (v : Option V) : Prop :=
  (∃ i j, i ≠ j ∧ cs i ≠ .empty ∧ cs j ≠ .empty) ∨ (v.isSome ∧ ∃ i, cs i ≠ .empty)

def Canonical : Trie ι V → Prop
  | .empty => True
  | .leaf _ _ => True
  | .ext p t => p ≠ [] ∧ IsBranch t ∧ Canonical t
  | .branch cs v => (∀ i, Canonical (cs i)) ∧ TwoOccupied cs v

/- Paths. -/

theorem common_prefix_left (a b : List ι) : common a b <+: a := by
  induction a generalizing b with
  | nil => simp [common]
  | cons x xs ih =>
    cases b with
    | nil => simp [common]
    | cons y ys =>
      simp only [common]
      split
      · exact List.cons_prefix_cons.mpr ⟨rfl, ih ys⟩
      · exact List.nil_prefix

theorem common_comm (a b : List ι) : common a b = common b a := by
  induction a generalizing b with
  | nil => cases b <;> rfl
  | cons x xs ih =>
    cases b with
    | nil => rfl
    | cons y ys =>
      by_cases same : x = y
      · subst same; simp [common, ih ys]
      · simp [common, same, Ne.symm same]

theorem common_prefix_right (a b : List ι) : common a b <+: b := by
  rw [common_comm]
  exact common_prefix_left b a

theorem common_append_drop_left (a b : List ι) :
    common a b ++ a.drop (common a b).length = a := by
  exact List.prefix_iff_eq_append.mp (common_prefix_left a b)

theorem common_append_drop_right (a b : List ι) :
    common a b ++ b.drop (common a b).length = b := by
  rw [common_comm]
  exact common_append_drop_left b a

theorem common_parts (a b : List ι) :
    (a.drop (common a b).length).head? ≠ (b.drop (common a b).length).head? ∨ a = b := by
  induction a generalizing b with
  | nil =>
    cases b with
    | nil => exact Or.inr rfl
    | cons y ys => left; simp [common]
  | cons x xs ih =>
    cases b with
    | nil => left; simp [common]
    | cons y ys =>
      by_cases same : x = y
      · subst same
        simp only [common, ↓reduceIte, List.length_cons, List.drop_succ_cons]
        rcases ih ys with parts | equal
        · exact Or.inl parts
        · exact Or.inr (by rw [equal])
      · left; simp [common, same]

omit [DecidableEq ι] in
theorem append_prefix_iff (p a k : List ι) :
    p ++ a <+: k ↔ p <+: k ∧ a <+: k.drop p.length := by
  constructor
  · rintro ⟨rest, rfl⟩
    rw [List.append_assoc, List.drop_left]
    exact ⟨List.prefix_append _ _, List.prefix_append _ _⟩
  · rintro ⟨⟨mid, rfl⟩, under⟩
    rw [List.drop_left] at under
    exact (List.prefix_append_right_inj p).mpr under

/- Lookups. -/

theorem lookup_place (p : List ι) (t : Trie ι V) (k : List ι) :
    lookup (place p t) k = if p <+: k then lookup t (k.drop p.length) else none := by
  unfold place
  split
  · rename_i none
    simp [none]
  · rfl

theorem lookup_attach (cs : ι → Trie ι V) (p : List ι) (grow : List ι → Trie ι V) (i : ι)
    (k : List ι) : lookup (attach cs p grow i) k =
      match p with
      | [] => lookup (cs i) k
      | j :: rest => if i = j then lookup (grow rest) k else lookup (cs i) k := by
  cases p with
  | nil => rfl
  | cons j rest =>
    by_cases same : i = j
    · subst same; simp [attach]
    · simp [attach, same]

/-- Two paths that part at once leave each other's lookups alone. The older
    content is described by its own lookup function. -/
theorem lookup_fork (a : List ι) (v : V) (b : List ι) (w : Option V)
    (grow : List ι → Trie ι V) (old : List ι → Option V)
    (atEnd : old [] = if b = [] then w else none)
    (below : ∀ i k, old (i :: k) = slotLookup b grow i k)
    (parts : a.head? ≠ b.head?) (k : List ι) :
    lookup (fork a v b w grow) k = if k = a then some v else old k := by
  cases k with
  | nil =>
    cases a with
    | nil => simp [fork, lookup]
    | cons x xs => simp [fork, lookup, atEnd]
  | cons i k =>
    rw [below]
    simp only [fork, lookup, lookup_attach, slotLookup]
    cases a with
    | nil => cases b <;> simp
    | cons x xs =>
      cases b with
      | nil =>
        by_cases same : i = x
        · subst same; simp [eq_comm]
        · simp [same]
      | cons y ys =>
        have differ : x ≠ y := by simpa using parts
        by_cases here : i = y
        · subst here
          simp [Ne.symm differ]
        · by_cases same : i = x
          · subst same; simp [here, eq_comm]
          · simp [here, same]

theorem lookup_split (p k key : List ι) (v : V) (w : Option V)
    (grow : List ι → Trie ι V) (old : List ι → Option V) (fresh : p ≠ k)
    (atEnd : old [] = if p.drop (common k p).length = [] then w else none)
    (below : ∀ i r, old (i :: r) = slotLookup (p.drop (common k p).length) grow i r) :
    lookup (place (common k p)
      (fork (k.drop (common k p).length) v (p.drop (common k p).length) w grow)) key =
      if key = k then some v
      else if common k p <+: key then old (key.drop (common k p).length) else none := by
  have parts := (common_parts k p).resolve_right (Ne.symm fresh)
  rw [lookup_place, lookup_fork _ _ _ _ _ old atEnd below parts]
  have split := common_append_drop_left k p
  by_cases here : common k p <+: key
  · obtain ⟨rest, rfl⟩ := here
    have same : common k p ++ rest = k ↔ rest = k.drop (common k p).length := by
      conv => lhs; rhs; rw [← split]
      rw [List.append_cancel_left_eq]
    simp [same]
  · have other : key ≠ k := fun equal => here (equal ▸ common_prefix_left k p)
    simp [here, other]

theorem lookup_insert (t : Trie ι V) (k key : List ι) (v : V) :
    lookup (insert t k v) key = if key = k then some v else lookup t key := by
  induction t generalizing k key with
  | empty => simp [insert, lookup, eq_comm]
  | leaf p w =>
    by_cases same : p = k
    · subst same
      by_cases here : p = key
      · simp [insert, lookup, here]
      · simp [insert, lookup, here, Ne.symm here]
    · simp only [insert, same, ↓reduceIte]
      rw [lookup_split p k key v (some w) _
        (fun rest => if p.drop (common k p).length = rest then some w else none) same (by simp)
        (by
          intro i r
          cases p.drop (common k p).length <;> simp [slotLookup, lookup, eq_comm, ite_and])]
      have split := common_append_drop_right k p
      congr 1
      by_cases here : common k p <+: key
      · obtain ⟨rest, rfl⟩ := here
        have equal : p = common k p ++ rest ↔ p.drop (common k p).length = rest := by
          conv => lhs; lhs; rw [← split]
          rw [List.append_cancel_left_eq]
        simp [lookup, equal]
      · have other : p ≠ key := fun equal => here (equal ▸ common_prefix_right k p)
        simp [lookup, here, other]
  | ext p t ih =>
    by_cases under : p <+: k
    · simp only [insert, under, ↓reduceIte, lookup]
      by_cases here : p <+: key
      · obtain ⟨rest, rfl⟩ := under
        obtain ⟨other, rfl⟩ := here
        simp [ih]
      · have differ : key ≠ k := fun equal => here (equal ▸ under)
        simp [here, differ]
    · have same : p ≠ k := fun equal => under (equal ▸ List.prefix_refl _)
      simp only [insert, under, ↓reduceIte]
      have split := common_append_drop_right k p
      have open' : p.drop (common k p).length ≠ [] := by
        intro none
        rw [none, List.append_nil] at split
        exact under (split ▸ common_prefix_left k p)
      rw [lookup_split p k key v none _
        (fun rest => if p.drop (common k p).length <+: rest
          then lookup t (rest.drop (p.drop (common k p).length).length) else none) same
        (by simp [open'])
        (by
          intro i r
          cases rest : p.drop (common k p).length with
          | nil => exact absurd rest open'
          | cons j more =>
            simp only [slotLookup, lookup_place, List.cons_prefix_cons, List.length_cons,
              List.drop_succ_cons]
            by_cases first : i = j
            · subst first; simp
            · simp [first, Ne.symm first])]
      congr 1
      simp only [lookup]
      have cut := append_prefix_iff (common k p) (p.drop (common k p).length) key
      rw [split] at cut
      have lengths : (common k p).length + (p.drop (common k p).length).length = p.length := by
        rw [← List.length_append, split]
      by_cases here : common k p <+: key
      · rw [List.drop_drop, lengths]
        simp [here, cut]
      · simp [here, cut]
  | branch cs w ih =>
    cases k with
    | nil => cases key <;> simp [insert, lookup]
    | cons i k =>
      cases key with
      | nil => simp [insert, lookup]
      | cons j key =>
        by_cases same : j = i
        · subst same; simp [insert, lookup, ih]
        · simp [insert, lookup, same]

/- Canonical form. -/

theorem insert_isBranch {t : Trie ι V} (shape : IsBranch t) (k : List ι) (v : V) :
    IsBranch (insert t k v) := by
  cases t with
  | branch cs w => cases k <;> simp [insert, IsBranch]
  | _ => simp [IsBranch] at shape

theorem place_ne_empty {p : List ι} {t : Trie ι V} (occupied : t ≠ .empty) :
    place p t ≠ .empty := by
  unfold place
  split
  · exact occupied
  · simp

theorem insert_ne_empty (t : Trie ι V) (k : List ι) (v : V) : insert t k v ≠ .empty := by
  cases t with
  | empty => simp [insert]
  | leaf p w =>
    simp only [insert]
    split
    · simp
    · exact place_ne_empty (by simp [fork])
  | ext p t =>
    simp only [insert]
    split
    · simp
    · exact place_ne_empty (by simp [fork])
  | branch cs w => cases k <;> simp [insert]

theorem place_canonical {p : List ι} {t : Trie ι V} (shape : IsBranch t) (valid : Canonical t) :
    Canonical (place p t) := by
  unfold place
  split
  · exact valid
  · rename_i path
    exact ⟨path, shape, valid⟩

theorem attach_canonical {cs : ι → Trie ι V} {p : List ι} {grow : List ι → Trie ι V}
    (valid : ∀ i, Canonical (cs i)) (grown : ∀ rest, Canonical (grow rest)) (i : ι) :
    Canonical (attach cs p grow i) := by
  cases p with
  | nil => exact valid i
  | cons j rest =>
    by_cases same : i = j
    · subst same; simpa [attach] using grown rest
    · simpa [attach, same] using valid i

theorem attach_occupied {cs : ι → Trie ι V} (i : ι) (rest : List ι) {grow : List ι → Trie ι V}
    (grown : grow rest ≠ .empty) : attach cs (i :: rest) grow i ≠ .empty := by
  simpa [attach] using grown

theorem fork_canonical {a b : List ι} {v : V} {w : Option V} {grow : List ι → Trie ι V}
    (parts : a.head? ≠ b.head?) (held : b = [] → w.isSome) (grown : ∀ rest, Canonical (grow rest))
    (occupied : ∀ rest, grow rest ≠ .empty) : Canonical (fork a v b w grow) := by
  refine ⟨attach_canonical (attach_canonical (fun _ => trivial) fun _ => trivial) grown, ?_⟩
  cases a with
  | nil =>
    cases b with
    | nil => simp at parts
    | cons j bs => exact Or.inr ⟨by simp, j, attach_occupied j bs (occupied bs)⟩
  | cons i as =>
    cases b with
    | nil =>
      refine Or.inr ⟨by simpa using held rfl, i, ?_⟩
      simp [attach]
    | cons j bs =>
      have differ : i ≠ j := by simpa using parts
      refine Or.inl ⟨i, j, differ, ?_, attach_occupied j bs (occupied bs)⟩
      simp [attach, differ]

theorem twoOccupied_update {cs : ι → Trie ι V} {w : Option V} (i : ι) {t : Trie ι V}
    (occupied : t ≠ .empty) (two : TwoOccupied cs w) :
    TwoOccupied (Function.update cs i t) w := by
  have keeps : ∀ j, cs j ≠ .empty → Function.update cs i t j ≠ .empty := by
    intro j held
    by_cases same : j = i
    · subst same; simpa using occupied
    · simpa [same] using held
  rcases two with ⟨a, b, differ, ha, hb⟩ | ⟨value, a, ha⟩
  · exact Or.inl ⟨a, b, differ, keeps a ha, keeps b hb⟩
  · exact Or.inr ⟨value, a, keeps a ha⟩

theorem insert_canonical {t : Trie ι V} (valid : Canonical t) (k : List ι) (v : V) :
    Canonical (insert t k v) := by
  induction t generalizing k with
  | empty => trivial
  | leaf p w =>
    simp only [insert]
    split
    · trivial
    · rename_i fresh
      have parts := (common_parts k p).resolve_right (Ne.symm fresh)
      exact place_canonical trivial
        (fork_canonical parts (fun _ => rfl) (fun _ => trivial) fun _ => by simp)
  | ext p t ih =>
    obtain ⟨path, shape, below⟩ := valid
    simp only [insert]
    split
    · exact ⟨path, insert_isBranch shape _ v, ih below _⟩
    · rename_i apart
      have fresh : p ≠ k := fun equal => apart (equal ▸ List.prefix_refl _)
      have parts := (common_parts k p).resolve_right (Ne.symm fresh)
      have split := common_append_drop_right k p
      refine place_canonical trivial (fork_canonical parts ?_ (fun _ => place_canonical shape below)
        fun _ => place_ne_empty ?_)
      · intro none
        rw [none, List.append_nil] at split
        exact absurd (split ▸ common_prefix_left k p) apart
      · intro gone
        rw [gone] at shape
        exact shape
  | branch cs w ih =>
    obtain ⟨children, two⟩ := valid
    cases k with
    | nil =>
      refine ⟨children, ?_⟩
      rcases two with pair | ⟨_, i, held⟩
      · exact Or.inl pair
      · exact Or.inr ⟨rfl, i, held⟩
    | cons i k =>
      refine ⟨?_, twoOccupied_update i (insert_ne_empty _ _ _) two⟩
      intro j
      by_cases same : j = i
      · subst same; simpa using ih j (children j) k
      · simpa [same] using children j

def lastValue (old : List ι → Option V) (ops : List (List ι × V)) (k : List ι) :
    Option V :=
  ops.foldl (fun found op => if k = op.1 then some op.2 else found) (old k)

theorem lookup_insertAll (t : Trie ι V) (ops : List (List ι × V)) (k : List ι) :
    lookup (insertAll t ops) k = lastValue (lookup t) ops k := by
  induction ops generalizing t with
  | nil => rfl
  | cons op ops ih =>
    simp only [insertAll, lastValue, List.foldl_cons] at ih ⊢
    rw [ih, lookup_insert]

theorem lookup_occupied {t : Trie ι V} {k : List ι} {v : V} (found : lookup t k = some v) :
    t ≠ .empty := by
  rintro rfl
  simp [lookup] at found

/- Uniqueness. -/

theorem occupied_has_key {t : Trie ι V} (valid : Canonical t) (occupied : t ≠ .empty) :
    ∃ k v, lookup t k = some v := by
  induction t with
  | empty => exact absurd rfl occupied
  | leaf p v => exact ⟨p, v, by simp [lookup]⟩
  | ext p t ih =>
    obtain ⟨_, shape, below⟩ := valid
    obtain ⟨k, v, found⟩ := ih below (by intro gone; rw [gone] at shape; exact shape)
    exact ⟨p ++ k, v, by simp [lookup, found]⟩
  | branch cs w ih =>
    obtain ⟨children, two⟩ := valid
    obtain ⟨i, held⟩ : ∃ i, cs i ≠ .empty := by
      rcases two with ⟨i, _, _, held, _⟩ | ⟨_, i, held⟩ <;> exact ⟨i, held⟩
    obtain ⟨k, v, found⟩ := ih i (children i) held
    exact ⟨i :: k, v, found⟩

theorem branch_keys_part {cs : ι → Trie ι V} {w : Option V}
    (valid : Canonical (.branch cs w)) :
    ∃ a b, lookup (.branch cs w) a ≠ none ∧ lookup (.branch cs w) b ≠ none ∧
      a.head? ≠ b.head? := by
  obtain ⟨children, two⟩ := valid
  rcases two with ⟨i, j, differ, hi, hj⟩ | ⟨value, i, held⟩
  · obtain ⟨a, va, ha⟩ := occupied_has_key (children i) hi
    obtain ⟨b, vb, hb⟩ := occupied_has_key (children j) hj
    exact ⟨i :: a, j :: b, by simp [lookup, ha], by simp [lookup, hb], by simpa using differ⟩
  · obtain ⟨a, va, ha⟩ := occupied_has_key (children i) held
    refine ⟨i :: a, [], by simp [lookup, ha], ?_, by simp⟩
    simpa [lookup, Option.isSome_iff_ne_none] using value

/-- An occupied canonical trie is one leaf, or a branch below a path. -/
theorem canonical_shape {t : Trie ι V} (valid : Canonical t) (occupied : t ≠ .empty) :
    (∃ p v, t = .leaf p v) ∨ ∃ p cs w, t = place p (.branch cs w) ∧ Canonical (.branch cs w) := by
  cases t with
  | empty => exact absurd rfl occupied
  | leaf p v => exact Or.inl ⟨p, v, rfl⟩
  | ext p t =>
    obtain ⟨path, shape, below⟩ := valid
    cases t with
    | branch cs w => exact Or.inr ⟨p, cs, w, by simp [place, path], below⟩
    | _ => simp [IsBranch] at shape
  | branch cs w => exact Or.inr ⟨[], cs, w, by simp [place], valid⟩

theorem prefix_of_parting {p q a b : List ι} (left : p <+: q ++ a) (right : p <+: q ++ b)
    (parts : a.head? ≠ b.head?) : p <+: q := by
  rcases List.prefix_or_prefix_of_prefix left (List.prefix_append q a) with shorter | longer
  · exact shorter
  · obtain ⟨rest, rfl⟩ := longer
    cases rest with
    | nil => simp
    | cons x rest =>
      have la := (List.prefix_append_right_inj q).mp left
      have lb := (List.prefix_append_right_inj q).mp right
      obtain ⟨ra, rfl⟩ := la
      obtain ⟨rb, rfl⟩ := lb
      simp at parts

theorem lookup_place_some {p : List ι} {t : Trie ι V} {k : List ι}
    (found : lookup (place p t) k ≠ none) : p <+: k := by
  rw [lookup_place] at found
  by_contra apart
  simp [apart] at found

theorem spine_prefix {p q : List ι} {s t : Trie ι V} {cs : ι → Trie ι V} {w : Option V}
    (branched : t = .branch cs w) (valid : Canonical t)
    (same : ∀ k, lookup (place p s) k = lookup (place q t) k) : p <+: q := by
  subst branched
  obtain ⟨a, b, ha, hb, parts⟩ := branch_keys_part valid
  have la : lookup (place p s) (q ++ a) ≠ none := by rw [same, lookup_place]; simpa using ha
  have lb : lookup (place p s) (q ++ b) ≠ none := by rw [same, lookup_place]; simpa using hb
  exact prefix_of_parting (lookup_place_some la) (lookup_place_some lb) parts

theorem leaf_not_branching {p q : List ι} {v : V} {cs : ι → Trie ι V} {w : Option V}
    (valid : Canonical (.branch cs w))
    (same : ∀ k, lookup (.leaf p v) k = lookup (place q (.branch cs w)) k) : False := by
  obtain ⟨a, b, ha, hb, parts⟩ := branch_keys_part valid
  have only : ∀ r, lookup (Trie.branch cs w) r ≠ none → p = q ++ r := by
    intro r found
    by_contra other
    have here := same (q ++ r)
    rw [lookup_place] at here
    simp [lookup, other] at here
    exact found here.symm
  have equal := (only a ha).symm.trans (only b hb)
  exact parts (by rw [List.append_cancel_left equal])

theorem place_lookup_inj {p : List ι} {s t : Trie ι V}
    (same : ∀ k, lookup (place p s) k = lookup (place p t) k) (k : List ι) :
    lookup s k = lookup t k := by
  have here := same (p ++ k)
  simpa [lookup_place] using here

theorem place_eq_nil {p q : List ι} {cs ds : ι → Trie ι V} {v w : Option V}
    (hs : Canonical (.branch cs v)) (ht : Canonical (.branch ds w))
    (same : ∀ k, lookup (place p (.branch cs v)) k = lookup (place q (.branch ds w)) k) :
    p = q ∧ ∀ k, lookup (.branch cs v) k = lookup (.branch ds w) k := by
  have pq := spine_prefix rfl ht same
  have qp := spine_prefix rfl hs fun k => (same k).symm
  have equal : p = q := pq.eq_of_length (Nat.le_antisymm pq.length_le qp.length_le)
  subst equal
  exact ⟨rfl, place_lookup_inj same⟩

/-- Canonical tries that answer every lookup alike are the same trie. -/
theorem canonical_unique (s t : Trie ι V) (hs : Canonical s) (ht : Canonical t)
    (same : ∀ k, lookup s k = lookup t k) : s = t := by
  induction s generalizing t with
  | empty =>
    by_contra other
    obtain ⟨k, v, found⟩ := occupied_has_key ht (Ne.symm other)
    rw [← same k] at found
    simp [lookup] at found
  | leaf p v =>
    have occupied : t ≠ .empty := by
      intro gone
      have here := same p
      simp [gone, lookup] at here
    rcases canonical_shape ht occupied with ⟨q, w, rfl⟩ | ⟨q, ds, w, rfl, below⟩
    · have here := same p
      simp only [lookup, ↓reduceIte] at here
      split at here
      · rename_i equal
        rw [equal, Option.some.inj here]
      · simp at here
    · exact False.elim (leaf_not_branching below same)
  | ext p s ih =>
    obtain ⟨path, shape, below⟩ := hs
    cases s with
    | branch cs v =>
      have spine : Trie.ext p (.branch cs v) = place p (.branch cs v) := by simp [place, path]
      rw [spine] at same ⊢
      have occupied : t ≠ .empty := by
        intro gone
        obtain ⟨k, v', found⟩ := occupied_has_key below (by simp)
        have here := same (p ++ k)
        rw [gone, lookup_place] at here
        simp [found, lookup] at here
      rcases canonical_shape ht occupied with ⟨q, w, rfl⟩ | ⟨q, ds, w, rfl, below'⟩
      · exact False.elim (leaf_not_branching below fun k => (same k).symm)
      · obtain ⟨rfl, inner⟩ := place_eq_nil below below' same
        rw [ih _ below below' inner]
    | _ => simp [IsBranch] at shape
  | branch cs v ih =>
    have occupied : t ≠ .empty := by
      intro gone
      obtain ⟨k, v', found⟩ := occupied_has_key hs (by simp)
      rw [same k, gone] at found
      simp [lookup] at found
    rcases canonical_shape ht occupied with ⟨q, w, rfl⟩ | ⟨q, ds, w, rfl, below'⟩
    · exact False.elim (leaf_not_branching (q := []) hs fun k => by simpa [place] using (same k).symm)
    · obtain ⟨rfl, inner⟩ := place_eq_nil (p := []) hs below' (by simpa [place] using same)
      simp only [place, ↓reduceIte]
      have value : v = w := by simpa [lookup] using inner []
      have children : cs = ds := by
        funext i
        exact ih i (ds i) (hs.1 i) (below'.1 i) fun k => by simpa [lookup] using inner (i :: k)
      rw [value, children]

end CompactTrie
