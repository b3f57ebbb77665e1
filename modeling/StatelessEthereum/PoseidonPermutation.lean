import StatelessEthereum.Fft
import Mathlib.LinearAlgebra.Matrix.ToLin
import Mathlib.LinearAlgebra.Matrix.NonsingularInverse

/- Poseidon on plain integers (zkSNARK/myposeidonhash.py), for any constants. -/
namespace PoseidonPermutation
open PythonError Fft

/-- `poseidon_constants` of the backend. -/
structure Constants where
  rF : Nat
  rP : Nat
  t : Nat
  a : Nat
  roundConstants : List (List Int)
  matrix : List (List Int)

def item {α : Type} (l : List α) (i : Nat) : Except PyError α :=
  match l[i]? with
  | some x => .ok x
  | none => .error .indexError

/-- `result[i][j]` of `matmul` after its loop over `k`. -/
def entry (modulus : Nat) (row : List Int) (y : List (List Int)) (j : Nat) : Except PyError Int :=
  (List.range y.length).foldlM (fun result k => do
    let left ← item row k
    let yRow ← item y k
    let right ← item yRow j
    .ok ((result + left * right) % modulus)) 0

def matmul (x y : List (List Int)) (modulus : Nat) : Except PyError (List (List Int)) := do
  let x0 ← item x 0
  if x0.length ≠ y.length then .error (.assertionError "")
  let y0 ← item y 0
  x.mapM fun row => (List.range y0.length).mapM (entry modulus row y)

def transpose (inputs : List (List Int)) : Except PyError (List (List Int)) := do
  let first ← item inputs 0
  (List.range first.length).mapM fun j => inputs.mapM fun row => item row j

section Rounds
variable (c : Constants) (modulus : Nat)

def mixLayer (sponge : List Int) : Except PyError (List Int) := do
  let column ← transpose [sponge]
  let mixed ← matmul c.matrix column modulus
  let rows ← transpose mixed
  item rows 0

def addConstants (sponge constants : List Int) : List Int :=
  List.zipWith (fun x y => (x + y) % modulus) sponge constants

def fullRound (sponge : List Int) (r : Nat) : Except PyError (List Int) := do
  let constants ← item c.roundConstants r
  let sponge := addConstants modulus sponge constants
  let sponge := sponge.map fun x => x ^ c.a % (modulus : Int)
  mixLayer c modulus sponge

/-- Only the first element goes through the S-box. -/
def partialRound (sponge : List Int) (r : Nat) : Except PyError (List Int) := do
  let constants ← item c.roundConstants r
  let sponge := addConstants modulus sponge constants
  let first ← item sponge 0
  let sponge := sponge.set 0 (first ^ c.a % modulus)
  mixLayer c modulus sponge

def permute (sponge : List Int) : Except PyError (List Int) := do
  let sponge ← (List.range (c.rF / 2)).foldlM (fullRound c modulus) sponge
  let sponge ← (List.range c.rP).foldlM (fun s r => partialRound c modulus s (c.rF / 2 + r)) sponge
  (List.range (c.rF / 2)).foldlM (fun s r => fullRound c modulus s (c.rF / 2 + c.rP + r)) sponge

end Rounds

/- States as vectors. -/
section Vectors
variable {modulus : Nat}

structure State (modulus t : Nat) (s : List Int) : Prop where
  length : s.length = t
  reduced : Reduced modulus s

def vec (modulus t : Nat) (s : List Int) (i : Fin t) : ZMod modulus := residues s i

theorem state_unique {t : Nat} {s s' : List Int} (left : State modulus t s)
    (right : State modulus t s') (same : vec modulus t s = vec modulus t s') : s = s' := by
  apply reduced_unique left.reduced right.reduced (left.length.trans right.length.symm)
  intro j inside
  exact congrFun same ⟨j, left.length ▸ inside⟩

variable [prime : Fact modulus.Prime]

theorem state_of_vec {t : Nat} (v : Fin t → ZMod modulus) :
    ∃ s, State modulus t s ∧ vec modulus t s = v := by
  have positive : NeZero modulus := ⟨prime.out.ne_zero⟩
  refine ⟨List.ofFn fun i => ((v i).val : Int), ⟨List.length_ofFn, ?_⟩, ?_⟩
  · intro c member
    obtain ⟨i, rfl⟩ := List.mem_ofFn.mp member
    exact ⟨Int.natCast_nonneg _, Int.ofNat_lt.mpr (ZMod.val_lt _)⟩
  · funext i
    rw [vec, residues, List.getD_eq_getElem _ _ (by rw [List.length_ofFn]; exact i.isLt),
      List.getElem_ofFn, Int.cast_natCast, ZMod.natCast_zmod_val]

/-- The code maps the states by `F`. -/
def Acts (modulus t : Nat) (f : List Int → Except PyError (List Int))
    (F : (Fin t → ZMod modulus) → Fin t → ZMod modulus) : Prop :=
  ∀ s, State modulus t s → ∃ s', f s = .ok s' ∧ State modulus t s' ∧
    vec modulus t s' = F (vec modulus t s)

omit prime in
theorem acts_bind {t : Nat} {f g : List Int → Except PyError (List Int)}
    {F G : (Fin t → ZMod modulus) → Fin t → ZMod modulus} (first : Acts modulus t f F)
    (next : Acts modulus t g G) : Acts modulus t (fun s => f s >>= g) (G ∘ F) := by
  intro s state
  obtain ⟨s', ran, state', value⟩ := first s state
  obtain ⟨s'', ran', state'', value'⟩ := next s' state'
  refine ⟨s'', ?_, state'', by rw [value', value, Function.comp_apply]⟩
  simp only [ran, bind, Except.bind, ran']

def Permutes (modulus t : Nat) (f : List Int → Except PyError (List Int)) : Prop :=
  ∃ F, Function.Bijective F ∧ Acts modulus t f F

omit prime in
theorem permutes_bind {t : Nat} {f g : List Int → Except PyError (List Int)}
    (first : Permutes modulus t f) (next : Permutes modulus t g) :
    Permutes modulus t fun s => f s >>= g := by
  obtain ⟨F, bijective, acts⟩ := first
  obtain ⟨G, bijective', acts'⟩ := next
  exact ⟨G ∘ F, bijective'.comp bijective, acts_bind acts acts'⟩

omit prime in
theorem permutes_foldlM {α : Type} {t : Nat} {round : List Int → α → Except PyError (List Int)}
    {rs : List α} (each : ∀ r ∈ rs, Permutes modulus t fun s => round s r) :
    Permutes modulus t fun s => rs.foldlM round s := by
  induction rs with
  | nil => exact ⟨id, Function.bijective_id, fun s state => ⟨s, rfl, state, rfl⟩⟩
  | cons r rs ih =>
    simp only [List.foldlM_cons]
    exact permutes_bind (each r List.mem_cons_self) (ih fun x member =>
      each x (List.mem_cons_of_mem _ member))

omit prime in
theorem permutes_total {t : Nat} {f : List Int → Except PyError (List Int)}
    (permutes : Permutes modulus t f) {s : List Int} (state : State modulus t s) :
    ∃ s', f s = .ok s' ∧ State modulus t s' := by
  obtain ⟨F, _, acts⟩ := permutes
  obtain ⟨s', ran, reached, _⟩ := acts s state
  exact ⟨s', ran, reached⟩

theorem permutes_unique {t : Nat} {f : List Int → Except PyError (List Int)}
    (permutes : Permutes modulus t f) {s' : List Int} (state : State modulus t s') :
    ∃! s, State modulus t s ∧ f s = .ok s' := by
  obtain ⟨F, bijective, acts⟩ := permutes
  obtain ⟨v, onto⟩ := bijective.surjective (vec modulus t s')
  obtain ⟨s, start, shown⟩ := state_of_vec v
  obtain ⟨out, ran, reached, value⟩ := acts s start
  refine ⟨s, ⟨start, ?_⟩, ?_⟩
  · rw [ran, state_unique reached state (by rw [value, shown, onto])]
  · rintro other ⟨known, same⟩
    obtain ⟨out', ran', _, value'⟩ := acts other known
    rw [same] at ran'
    cases ran'
    exact state_unique known start (bijective.injective (by rw [← value', shown, onto]))

/- The layers. -/

theorem acts_addConstants {t : Nat} {constants : List Int} (size : constants.length = t) :
    Acts modulus t (fun s => .ok (addConstants modulus s constants))
      (Equiv.addRight (vec modulus t constants)) := by
  have positive : NeZero modulus := ⟨prime.out.ne_zero⟩
  intro s state
  refine ⟨_, rfl, ⟨?_, ?_⟩, ?_⟩
  · simp only [addConstants, List.length_zipWith, state.length, size, Nat.min_self]
  · intro x member
    obtain ⟨i, inside, rfl⟩ := List.mem_iff_getElem.mp member
    simp only [addConstants, List.getElem_zipWith]
    exact mod_reduced _
  · funext i
    have left : (i : Nat) < s.length := state.length ▸ i.isLt
    have right : (i : Nat) < constants.length := size ▸ i.isLt
    have both : (i : Nat) < (addConstants modulus s constants).length := by
      simp only [addConstants, List.length_zipWith]
      omega
    change (residues _ i : ZMod modulus) = residues s i + residues constants i
    rw [residues_get both, residues_get left, residues_get right]
    simp only [addConstants, List.getElem_zipWith, ZMod.intCast_mod, Int.cast_add]

/-- Powers prime to the order of the group of units. -/
theorem sbox_injective {a : Nat} (power : 0 < a) (coprime : (modulus - 1).Coprime a) :
    Function.Injective fun x : ZMod modulus => x ^ a := by
  intro x y same
  by_cases zero : x = 0
  · rw [zero] at same ⊢
    simp only [zero_pow power.ne'] at same
    exact (pow_eq_zero_iff power.ne').mp same.symm |>.symm
  · have other : y ≠ 0 := by
      rintro rfl
      simp only [zero_pow power.ne'] at same
      exact zero ((pow_eq_zero_iff power.ne').mp same)
    have order : (Nat.card (ZMod modulus)ˣ).Coprime a := by
      rwa [Nat.card_eq_fintype_card, ZMod.card_units]
    have units : Units.mk0 x zero ^ a = Units.mk0 y other ^ a := Units.ext same
    have equal := (powCoprime order).injective units
    exact congrArg Units.val equal

theorem acts_sbox {t : Nat} (a : Nat) :
    Acts modulus t (fun s => .ok (s.map fun x => x ^ a % (modulus : Int)))
      (Pi.map fun _ x => x ^ a) := by
  have positive : NeZero modulus := ⟨prime.out.ne_zero⟩
  intro s state
  refine ⟨_, rfl, ⟨by rw [List.length_map, state.length], ?_⟩, ?_⟩
  · intro x member
    obtain ⟨y, _, rfl⟩ := List.mem_map.mp member
    exact mod_reduced _
  · funext i
    have inside : (i : Nat) < s.length := state.length ▸ i.isLt
    rw [vec, residues_get (by rw [List.length_map]; exact inside), List.getElem_map,
      ZMod.intCast_mod, Int.cast_pow, Pi.map_apply, vec, residues_get inside]

def firstSbox (a : Nat) {t : Nat} (first : Fin t) (v : Fin t → ZMod modulus) : Fin t → ZMod modulus :=
  Function.update v first (v first ^ a)

theorem acts_firstSbox {t : Nat} (a : Nat) (some : 0 < t) :
    Acts modulus t (fun s => do
      let first ← item s 0
      .ok (s.set 0 (first ^ a % modulus))) (firstSbox a ⟨0, some⟩) := by
  have positive : NeZero modulus := ⟨prime.out.ne_zero⟩
  intro s state
  have begins : 0 < s.length := state.length ▸ some
  refine ⟨s.set 0 (s[0] ^ a % modulus), ?_, ⟨by rw [List.length_set, state.length], ?_⟩, ?_⟩
  · simp only [item, List.getElem?_eq_getElem begins, bind, Except.bind]
  · intro x member
    rcases List.mem_or_eq_of_mem_set member with old | rfl
    · exact state.reduced x old
    · exact mod_reduced _
  · funext i
    have inside : (i : Nat) < s.length := state.length ▸ i.isLt
    rw [vec, residues_get (by rw [List.length_set]; exact inside), List.getElem_set, firstSbox]
    by_cases same : i = ⟨0, some⟩
    · subst same
      rw [Function.update_self, if_pos rfl, ZMod.intCast_mod, Int.cast_pow, vec, residues_get begins]
    · rw [Function.update_of_ne same, if_neg (fun zero => same (Fin.ext zero.symm)), vec,
        residues_get inside]

theorem item_get {α : Type} {l : List α} {i : Nat} (inside : i < l.length) :
    item l i = .ok (l.get ⟨i, inside⟩) := by
  rw [item, List.getElem?_eq_getElem inside]
  rfl

theorem entry_column {row s : List Int} (size : s.length ≤ row.length) :
    ∃ e, entry modulus row (s.map fun x => [x]) 0 = .ok e ∧ (0 ≤ e ∧ e < modulus) ∧
      (e : ZMod modulus) = ∑ k ∈ Finset.range s.length, residues row k * residues s k := by
  have positive : NeZero modulus := ⟨prime.out.ne_zero⟩
  have loop (n : Nat) (inside : n ≤ s.length) : ∃ e, (List.range n).foldlM (fun result k => do
        let left ← item row k
        let yRow ← item (s.map fun x => [x]) k
        let right ← item yRow 0
        .ok ((result + left * right) % (modulus : Int))) 0 = (.ok e : Except PyError Int) ∧
      (0 ≤ e ∧ e < modulus) ∧
      (e : ZMod modulus) = ∑ k ∈ Finset.range n, residues row k * residues s k := by
    induction n with
    | zero =>
      refine ⟨0, rfl, ⟨Int.le_refl 0, ?_⟩, by simp⟩
      exact_mod_cast prime.out.pos
    | succ n ih =>
      obtain ⟨e, ran, _, value⟩ := ih (by omega)
      refine ⟨(e + row.get ⟨n, by omega⟩ * s.get ⟨n, by omega⟩) % modulus, ?_, mod_reduced _, ?_⟩
      · have column : (s.map fun x => [x]).get ⟨n, by rw [List.length_map]; omega⟩ =
            [s.get ⟨n, by omega⟩] := by
          simp
        rw [List.range_succ, List.foldlM_append, ran]
        simp only [List.foldlM_cons, List.foldlM_nil, bind, Except.bind, item_get (l := row)
          (show n < row.length by omega), item_get (l := s.map fun x => [x]) (i := n)
          (by rw [List.length_map]; omega), column]
        rfl
      · rw [ZMod.intCast_mod, Int.cast_add, Int.cast_mul, value, Finset.sum_range_succ,
          residues_get (by omega), residues_get (by omega)]
        rfl
  have whole := loop s.length (Nat.le_refl _)
  rwa [entry, List.length_map]

def mixMatrix (c : Constants) (modulus : Nat) : Matrix (Fin c.t) (Fin c.t) (ZMod modulus) :=
  fun i j => residues (c.matrix.getD i []) j

omit prime in
theorem transpose_row (s : List Int) : transpose [s] = .ok (s.map fun x => [x]) := by
  have each : (List.range s.length).mapM (fun j => [s].mapM fun row => item row j) =
      .ok ((List.range s.length).map fun j => [s.getD j 0]) := mapM_eq fun j member => by
    have inside := List.mem_range.mp member
    simp only [List.mapM_cons, List.mapM_nil, item, List.getElem?_eq_getElem inside,
      List.getD_eq_getElem _ _ inside, bind, Except.bind, pure, Except.pure]
  have same : (List.range s.length).map (fun j => [s.getD j 0]) = s.map fun x => [x] := by
    apply List.ext_getElem (by simp)
    intro j _ inside
    have here : j < s.length := by simpa using inside
    simp [here]
  rw [← same]
  exact each

omit prime in
theorem transpose_column {s : List Int} (some : 0 < s.length) :
    transpose (s.map fun x => [x]) = .ok [s] := by
  have column := mapM_map_ok (f := fun row : List Int => item row 0) (h := fun x : Int => [x])
    (g := id) (l := s) fun x _ => rfl
  rw [List.map_id] at column
  have first : item (s.map fun x => [x]) 0 = .ok [s.get ⟨0, some⟩] := by
    rw [item_get (by rw [List.length_map]; exact some)]
    simp
  simp only [transpose, first, bind, Except.bind, List.length_singleton, List.range_one,
    List.mapM_cons, List.mapM_nil, column, pure, Except.pure]

theorem acts_mixLayer {c : Constants} (some : 0 < c.t) (rows : c.matrix.length = c.t)
    (square : ∀ row ∈ c.matrix, row.length = c.t) :
    Acts modulus c.t (mixLayer c modulus) (mixMatrix c modulus).mulVec := by
  intro s state
  have wide : ∀ row ∈ c.matrix, s.length ≤ row.length := fun row member => by
    rw [state.length, square row member]
  choose! e ran small value using fun row member =>
    @entry_column modulus prime row s (wide row member)
  have mixed : c.matrix.mapM (fun row => (List.range 1).mapM
      (entry modulus row (s.map fun x => [x]))) = .ok ((c.matrix.map e).map fun x => [x]) := by
    rw [List.map_map]
    refine mapM_eq fun row member => ?_
    simp only [List.range_one, List.mapM_cons, List.mapM_nil, ran row member, bind, Except.bind,
      pure, Except.pure]
    rfl
  have inside (i : Fin c.t) : (i : Nat) < c.matrix.length := by
    rw [rows]
    exact i.isLt
  refine ⟨c.matrix.map e, ?_, ⟨by rw [List.length_map, rows], ?_⟩, ?_⟩
  · have first : 0 < c.matrix.length := by rw [rows]; exact some
    have top := item_get first
    have begins : item (s.map fun x => [x]) 0 = .ok [s.get ⟨0, by rw [state.length]; exact some⟩] := by
      rw [item_get (by rw [List.length_map, state.length]; exact some)]
      simp
    have square0 : (c.matrix.get ⟨0, first⟩).length = s.length := by
      rw [square _ (List.get_mem _ _), state.length]
    have back := transpose_column (s := c.matrix.map e) (by rw [List.length_map, rows]; exact some)
    simp only [mixLayer, transpose_row, matmul, top, begins, square0, List.length_map, ne_eq,
      not_true_eq_false, if_false, List.length_singleton, mixed, back, bind, Except.bind]
    rfl
  · intro x member
    obtain ⟨row, held, rfl⟩ := List.mem_map.mp member
    exact small row held
  · funext i
    rw [vec, residues_get (by rw [List.length_map]; exact inside i), List.getElem_map,
      value _ (List.getElem_mem _), state.length, Finset.sum_range, Matrix.mulVec, dotProduct]
    refine Finset.sum_congr rfl fun j _ => ?_
    rw [mixMatrix, List.getD_eq_getElem _ _ (inside i), vec]

/- The rounds. -/

/-- Constants that fit the state, an S-box that is one to one and a matrix that can be
    inverted. -/
structure Proper (c : Constants) (modulus : Nat) : Prop where
  some : 0 < c.t
  rows : c.matrix.length = c.t
  square : ∀ row ∈ c.matrix, row.length = c.t
  rounds : 2 * (c.rF / 2) + c.rP ≤ c.roundConstants.length
  constants : ∀ constants ∈ c.roundConstants, constants.length = c.t
  power : 0 < c.a
  coprime : (modulus - 1).Coprime c.a
  invertible : (mixMatrix c modulus).det ≠ 0

section Permutation
variable {c : Constants} (proper : Proper c modulus)
include proper

theorem mixLayer_permutes : Permutes modulus c.t (mixLayer c modulus) := by
  have positive : NeZero modulus := ⟨prime.out.ne_zero⟩
  refine ⟨_, Finite.injective_iff_bijective.mp ?_, acts_mixLayer proper.some proper.rows proper.square⟩
  rw [Matrix.mulVec_injective_iff_isUnit, Matrix.isUnit_iff_isUnit_det]
  exact proper.invertible.isUnit

theorem addConstants_permutes {constants : List Int} (held : constants ∈ c.roundConstants) :
    Permutes modulus c.t fun s => .ok (addConstants modulus s constants) :=
  ⟨_, Equiv.bijective _, acts_addConstants (proper.constants constants held)⟩

theorem sbox_permutes :
    Permutes modulus c.t fun s => .ok (s.map fun x => x ^ c.a % (modulus : Int)) := by
  have positive : NeZero modulus := ⟨prime.out.ne_zero⟩
  have box := Finite.injective_iff_bijective.mp (sbox_injective proper.power proper.coprime)
  exact ⟨_, Function.Bijective.piMap fun _ => box, acts_sbox c.a⟩

theorem firstSbox_permutes : Permutes modulus c.t (fun s => do
    let first ← item s 0
    .ok (s.set 0 (first ^ c.a % modulus))) := by
  have positive : NeZero modulus := ⟨prime.out.ne_zero⟩
  refine ⟨_, Finite.injective_iff_bijective.mp ?_, acts_firstSbox c.a proper.some⟩
  intro v v' same
  have first := congrFun same ⟨0, proper.some⟩
  simp only [firstSbox, Function.update_self] at first
  funext i
  by_cases here : i = ⟨0, proper.some⟩
  · rw [here]
    exact sbox_injective proper.power proper.coprime first
  · have other := congrFun same i
    simpa only [firstSbox, Function.update_of_ne here] using other

theorem fullRound_permutes {r : Nat} (inside : r < c.roundConstants.length) :
    Permutes modulus c.t fun s => fullRound c modulus s r := by
  have round := permutes_bind (permutes_bind
    (addConstants_permutes proper (List.get_mem c.roundConstants ⟨r, inside⟩)) (sbox_permutes proper))
    (mixLayer_permutes proper)
  unfold fullRound
  rw [item_get inside]
  exact round

theorem partialRound_permutes {r : Nat} (inside : r < c.roundConstants.length) :
    Permutes modulus c.t fun s => partialRound c modulus s r := by
  have round := permutes_bind
    (addConstants_permutes proper (List.get_mem c.roundConstants ⟨r, inside⟩))
    (permutes_bind (firstSbox_permutes proper) (mixLayer_permutes proper))
  obtain ⟨F, bijective, acts⟩ := round
  refine ⟨F, bijective, fun s state => ?_⟩
  obtain ⟨s', ran, reached⟩ := acts s state
  refine ⟨s', ?_, reached⟩
  rw [← ran]
  simp only [partialRound, item_get inside, bind, Except.bind]
  cases item (addConstants modulus s (c.roundConstants.get ⟨r, inside⟩)) 0 <;> rfl

theorem permute_permutes : Permutes modulus c.t (permute c modulus) := by
  have enough := proper.rounds
  refine permutes_bind (permutes_foldlM fun r member => ?_)
    (permutes_bind (permutes_foldlM fun r member => ?_) (permutes_foldlM fun r member => ?_))
  · have inside := List.mem_range.mp member
    exact fullRound_permutes proper (by omega)
  · have inside := List.mem_range.mp member
    exact partialRound_permutes proper (by omega)
  · have inside := List.mem_range.mp member
    exact fullRound_permutes proper (by omega)

/-- The permutation is one: on the states it is total and hits each of them once. -/
theorem permute_bijective :
    (∀ s, State modulus c.t s → ∃ s', permute c modulus s = .ok s' ∧ State modulus c.t s') ∧
      ∀ s', State modulus c.t s' → ∃! s, State modulus c.t s ∧ permute c modulus s = .ok s' := by
  have permutes := permute_permutes proper
  exact ⟨fun s => permutes_total permutes, fun s' => permutes_unique permutes⟩

end Permutation

/- Small constants. -/

def sampleConstants : Constants where
  rF := 2
  rP := 1
  t := 3
  a := 5
  roundConstants := [[1, 2, 3], [4, 5, 6], [3, 0, 2]]
  matrix := [[2, 1, 1], [1, 2, 1], [1, 1, 2]]

theorem sampleConstants_proper : Proper sampleConstants 7 :=
  ⟨by decide, by decide, by decide, by decide, by decide, by decide, by decide, by decide⟩

theorem permute_bijective_sample :
    ∃! s, State 7 3 s ∧ permute sampleConstants 7 s = .ok [1, 2, 3] := by
  have prime : Fact (Nat.Prime 7) := ⟨by norm_num⟩
  exact (permute_bijective sampleConstants_proper).2 [1, 2, 3] ⟨rfl, by unfold Reduced; decide⟩

end Vectors

end PoseidonPermutation
