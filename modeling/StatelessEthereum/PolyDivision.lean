import StatelessEthereum.Fft
import StatelessEthereum.CoefficientLists

/- Arithmetic of coefficient lists (verkle/utils/poly_utils.py): the loops on plain
   integers, and the polynomials over the prime field that they compute. -/
namespace PolyDivision
open Polynomial PythonError PolyUtils Fft CoefficientLists

section Operations
variable (modulus : Nat)

def addPolys (a b : List Int) : List Int :=
  (List.range (max a.length b.length)).map fun i => (a.getD i 0 + b.getD i 0) % modulus

def subPolys (a b : List Int) : List Int :=
  (List.range (max a.length b.length)).map fun i => (a.getD i 0 - b.getD i 0) % modulus

/-- The inner loop of `mul_polys` from position `k = i + j` on. -/
def addRow (x : Int) : List Int → Nat → List Int → List Int
  | [], _, o => o
  | y :: b, k, o => addRow x b (k + 1) (o.modify k fun c => c + x * y)

def mulLoop (b : List Int) : List Int → Nat → List Int → List Int
  | [], _, o => o
  | x :: a, i, o => mulLoop b a (i + 1) (addRow x b i o)

def mulPolys (a b : List Int) : List Int :=
  (mulLoop b a 0 (List.replicate (a.length + b.length - 1) 0)).map fun x => x % modulus

/-- The inner loop of `div_polys`, from the position below the bound down to 0. -/
def subRow (b : List Int) (quot : Int) (diff : Nat) : Nat → List Int → List Int
  | 0, a => a
  | i + 1, a => subRow b quot diff i (a.modify (diff + i) fun c => c + -(b.getD i 0 * quot))

/-- The turns from `diff` equal to the first argument less one down to 0, with
    `apos = diff + bpos`. -/
def divLoop (b : List Int) (bpos : Nat) : Nat → List Int → List Int → List Int
  | 0, _, o => o
  | diff + 1, a, o =>
    let quot := div modulus (a.getD (diff + bpos) 0) (b.getD bpos 0)
    divLoop b bpos diff (subRow b quot diff (bpos + 1) a) (quot :: o)

def divPolys (a b : List Int) : Except PyError (List Int) :=
  if a.length < b.length then .error (.assertionError "")
  -- `b[bpos]` of no coefficient
  else if b.length = 0 then .error .indexError
  else .ok ((divLoop modulus b (b.length - 1) (a.length - b.length + 1) a []).map
    fun x => x % modulus)

def modPolys (a b : List Int) : Except PyError (List Int) := do
  let q ← divPolys modulus a b
  .ok ((subPolys modulus a (mulPolys modulus b q)).take (b.length - 1))

end Operations

/- What the loops compute. -/
section Field
variable {modulus : Nat}

/-- The polynomial over the field that the residues of the integers are. -/
noncomputable def polyOf (modulus : Nat) (l : List Int) : (ZMod modulus)[X] :=
  poly (l.map (Int.cast : Int → ZMod modulus))

theorem polyOf_coeff (l : List Int) (j : Nat) : (polyOf modulus l).coeff j = residues l j := by
  rw [polyOf, poly_coeff, getD_cast]

theorem polyOf_degree (l : List Int) : (polyOf modulus l).degree < l.length := by
  have low := poly_degree (l.map (Int.cast : Int → ZMod modulus))
  rwa [List.length_map] at low

theorem polyOf_cons (c : Int) (l : List Int) :
    polyOf modulus (c :: l) = C (c : ZMod modulus) + X * polyOf modulus l := rfl

@[simp] theorem polyOf_nil : polyOf modulus [] = 0 := rfl

@[simp] theorem polyOf_reduce (l : List Int) :
    polyOf modulus (l.map fun x => x % modulus) = polyOf modulus l := by
  rw [polyOf, polyOf, List.map_map]
  congr 1
  apply List.map_congr_left
  intro c _
  exact ZMod.intCast_mod c modulus

theorem polyOf_modify {l : List Int} {i : Nat} (inside : i < l.length) (x : Int) :
    polyOf modulus (l.modify i fun c => c + x) = polyOf modulus l + C (x : ZMod modulus) * X ^ i := by
  rw [polyOf, polyOf, ← poly_modify (by rwa [List.length_map])]
  congr 1
  apply List.ext_getElem?
  intro j
  simp only [List.getElem?_map, List.getElem?_modify]
  split
  · cases l[j]? with
    | none => rfl
    | some c => simp
  · cases l[j]? with
    | none => rfl
    | some c => rfl

theorem polyOf_take {l : List Int} {n : Nat} (low : (polyOf modulus l).degree < n) :
    polyOf modulus (l.take n) = polyOf modulus l := by
  rw [polyOf, List.map_take]
  exact poly_take low

theorem polyOf_ext {l : List Int} {P : (ZMod modulus)[X]} (same : ∀ j, residues l j = P.coeff j) :
    polyOf modulus l = P := by
  ext j
  rw [polyOf_coeff, same]

/-- Entries beyond both lists are zero on both sides. -/
theorem entrywise (f : Int → Int → Int) (zero : f 0 0 = 0) (a b : List Int) (j : Nat) :
    @residues modulus
        ((List.range (max a.length b.length)).map fun i => f (a.getD i 0) (b.getD i 0)) j =
      (f (a.getD j 0) (b.getD j 0) : ZMod modulus) := by
  rcases Nat.lt_or_ge j (max a.length b.length) with inside | beyond
  · exact residues_map _ inside
  · have beyondA : a.getD j 0 = 0 := List.getD_eq_default _ _ (by omega)
    have beyondB : b.getD j 0 = 0 := List.getD_eq_default _ _ (by omega)
    rw [beyondA, beyondB, zero, residues_beyond (by simpa using beyond), Int.cast_zero]

theorem addPolys_poly (a b : List Int) :
    polyOf modulus (addPolys modulus a b) = polyOf modulus a + polyOf modulus b := by
  apply polyOf_ext
  intro j
  rw [addPolys, entrywise (fun x y => (x + y) % modulus) (by simp), coeff_add, polyOf_coeff,
    polyOf_coeff, residues, residues, ZMod.intCast_mod, Int.cast_add]

theorem subPolys_poly (a b : List Int) :
    polyOf modulus (subPolys modulus a b) = polyOf modulus a - polyOf modulus b := by
  apply polyOf_ext
  intro j
  rw [subPolys, entrywise (fun x y => (x - y) % modulus) (by simp), coeff_sub, polyOf_coeff,
    polyOf_coeff, residues, residues, ZMod.intCast_mod, Int.cast_sub]

theorem addRow_length (x : Int) (b : List Int) (k : Nat) (o : List Int) :
    (addRow x b k o).length = o.length := by
  induction b generalizing k o with
  | nil => rfl
  | cons y b ih => rw [addRow, ih, List.length_modify]

theorem addRow_poly (x : Int) (b : List Int) (k : Nat) (o : List Int)
    (room : k + b.length ≤ o.length) :
    polyOf modulus (addRow x b k o) =
      polyOf modulus o + C (x : ZMod modulus) * X ^ k * polyOf modulus b := by
  induction b generalizing k o with
  | nil => simp [addRow]
  | cons y b ih =>
    rw [List.length_cons] at room
    rw [addRow, ih _ _ (by rw [List.length_modify]; omega), polyOf_modify (by omega), polyOf_cons,
      Int.cast_mul, C_mul, pow_succ]
    ring

theorem mulLoop_length (b a : List Int) (i : Nat) (o : List Int) :
    (mulLoop b a i o).length = o.length := by
  induction a generalizing i o with
  | nil => rfl
  | cons x a ih => rw [mulLoop, ih, addRow_length]

theorem mulLoop_poly (b a : List Int) (i : Nat) (o : List Int)
    (room : i + a.length + b.length ≤ o.length + 1) :
    polyOf modulus (mulLoop b a i o) =
      polyOf modulus o + X ^ i * polyOf modulus a * polyOf modulus b := by
  induction a generalizing i o with
  | nil => simp [mulLoop]
  | cons x a ih =>
    rw [List.length_cons] at room
    rw [mulLoop, ih _ _ (by rw [addRow_length]; omega), addRow_poly _ _ _ _ (by omega), polyOf_cons,
      pow_succ]
    ring

theorem mulPolys_length (a b : List Int) :
    (mulPolys modulus a b).length = a.length + b.length - 1 := by
  rw [mulPolys, List.length_map, mulLoop_length, List.length_replicate]

theorem mulPolys_poly (a b : List Int) :
    polyOf modulus (mulPolys modulus a b) = polyOf modulus a * polyOf modulus b := by
  have zeros : polyOf modulus (List.replicate (a.length + b.length - 1) 0) = 0 := by
    rw [polyOf, List.map_replicate, Int.cast_zero, poly_replicate]
  rw [mulPolys, polyOf_reduce, mulLoop_poly _ _ _ _ (by rw [List.length_replicate]; omega), zeros,
    pow_zero, zero_add, one_mul]

theorem subRow_length (b : List Int) (quot : Int) (diff n : Nat) (a : List Int) :
    (subRow b quot diff n a).length = a.length := by
  induction n generalizing a with
  | zero => rfl
  | succ i ih => rw [subRow, ih, List.length_modify]

/-- The positions above the bound are those already subtracted. -/
theorem subRow_poly (b : List Int) (quot : Int) (diff n : Nat) (a : List Int)
    (below : n ≤ b.length) (room : diff + n ≤ a.length) :
    polyOf modulus (subRow b quot diff n a) =
      polyOf modulus a - C (quot : ZMod modulus) * X ^ diff * polyOf modulus (b.take n) := by
  induction n generalizing a with
  | zero => simp [subRow]
  | succ i ih =>
    have entry : b.take (i + 1) = b.take i ++ [b.getD i 0] := by
      rw [List.take_add_one, List.getD_eq_getElem?_getD, List.getElem?_eq_getElem (by omega)]
      rfl
    have split : polyOf modulus (b.take (i + 1)) =
        polyOf modulus (b.take i) + X ^ i * C ((b.getD i 0 : Int) : ZMod modulus) := by
      rw [entry, polyOf, List.map_append, poly_append, List.length_map, List.length_take,
        Nat.min_eq_left (by omega)]
      simp [polyOf, poly_cons]
    rw [subRow, ih _ (by omega) (by rw [List.length_modify]; omega), polyOf_modify (by omega), split,
      Int.cast_neg, Int.cast_mul, C_neg, C_mul, pow_add]
    ring

/-- One turn takes the multiple of the divisor off that ends at position `apos`. -/
theorem turn_poly {b a : List Int} {diff : Nat} (quot : Int) (some : 1 ≤ b.length)
    (room : diff + b.length ≤ a.length) :
    polyOf modulus (subRow b quot diff (b.length - 1 + 1) a) =
      polyOf modulus a - C (quot : ZMod modulus) * X ^ diff * polyOf modulus b := by
  rw [Nat.sub_add_cancel some, subRow_poly _ _ _ _ _ (Nat.le_refl _) room, List.take_length]

theorem divLoop_length (b : List Int) (bpos n : Nat) (a o : List Int) :
    (divLoop modulus b bpos n a o).length = n + o.length := by
  induction n generalizing a o with
  | zero => simp [divLoop]
  | succ n ih =>
    rw [divLoop, ih, List.length_cons]
    omega

section Prime
variable [prime : Fact modulus.Prime]

/-- The quotient of the leading coefficients cancels the coefficient at `apos`. -/
theorem turn_degree {b a : List Int} {n bpos : Nat} (size : b.length = bpos + 1)
    (unit : @residues modulus b bpos ≠ 0)
    (low : (polyOf modulus a).degree < (n + 1 + bpos : Nat)) :
    degree (polyOf modulus a - C ((div modulus (a.getD (n + bpos) 0) (b.getD bpos 0) : Int) :
      ZMod modulus) * X ^ n * polyOf modulus b) < (n + bpos : Nat) := by
  have quotient : ((div modulus (a.getD (n + bpos) 0) (b.getD bpos 0) : Int) : ZMod modulus) =
      residues a (n + bpos) / residues b bpos := by
    rw [div_cast fun zero => absurd zero unit]
    rfl
  rw [degree_lt_iff_coeff_zero] at low ⊢
  intro j from'
  have shifted : (C ((div modulus (a.getD (n + bpos) 0) (b.getD bpos 0) : Int) : ZMod modulus) *
      X ^ n * polyOf modulus b).coeff j =
        residues a (n + bpos) / residues b bpos * residues b (j - n) := by
    rw [mul_assoc, coeff_C_mul, coeff_X_pow_mul', if_pos (by omega), polyOf_coeff, quotient]
  rw [coeff_sub, shifted]
  rcases Nat.eq_or_lt_of_le from' with rfl | above
  · rw [polyOf_coeff, Nat.add_sub_cancel_left, div_mul_cancel₀ _ unit, sub_self]
  · have none : @residues modulus b (j - n) = 0 := by
      rw [← polyOf_coeff]
      exact (degree_lt_iff_coeff_zero _ _).mp (polyOf_degree b) _ (by omega)
    rw [low j (by omega), none, mul_zero, sub_self]

/-- What the quotient so far, `n` places up, and the rest of the dividend amount to is
    kept; at the end the rest is shorter than the divisor. -/
theorem divLoop_poly {b : List Int} {bpos : Nat} (size : b.length = bpos + 1)
    (unit : @residues modulus b bpos ≠ 0) (n : Nat) (a o : List Int)
    (room : n + bpos ≤ a.length) (low : (polyOf modulus a).degree < (n + bpos : Nat)) :
    degree (polyOf modulus a + polyOf modulus b * X ^ n * polyOf modulus o -
      polyOf modulus b * polyOf modulus (divLoop modulus b bpos n a o)) < bpos := by
  induction n generalizing a o with
  | zero =>
    rw [divLoop, pow_zero, mul_one, add_sub_cancel_right]
    rwa [Nat.zero_add] at low
  | succ n ih =>
    have turn := @turn_poly modulus b a n
      (div modulus (a.getD (n + bpos) 0) (b.getD bpos 0)) (by omega) (by omega)
    rw [size, Nat.add_sub_cancel] at turn
    have next := ih (subRow b (div modulus (a.getD (n + bpos) 0) (b.getD bpos 0)) n (bpos + 1) a)
      (div modulus (a.getD (n + bpos) 0) (b.getD bpos 0) :: o)
      (by rw [subRow_length]; omega) (by rw [turn]; exact turn_degree size unit low)
    rw [turn, polyOf_cons] at next
    rw [divLoop]
    convert next using 2
    ring

/-- Long division: the quotient's multiple of the divisor leaves less than the
    divisor. -/
theorem divPolys_spec {a b : List Int} {bpos : Nat} (size : b.length = bpos + 1)
    (unit : @residues modulus b bpos ≠ 0) (longer : b.length ≤ a.length) :
    ∃ q, divPolys modulus a b = .ok q ∧ q.length = a.length - b.length + 1 ∧ Reduced modulus q ∧
      degree (polyOf modulus a - polyOf modulus b * polyOf modulus q) < bpos := by
  have positive : NeZero modulus := ⟨prime.out.ne_zero⟩
  refine ⟨(divLoop modulus b (b.length - 1) (a.length - b.length + 1) a []).map
    fun x => x % modulus, ?_, ?_, ?_, ?_⟩
  · rw [divPolys, if_neg (by omega), if_neg (by omega)]
  · rw [List.length_map, divLoop_length, List.length_nil, Nat.add_zero]
  · intro c member
    obtain ⟨x, _, rfl⟩ := List.mem_map.mp member
    exact mod_reduced x
  · have whole : a.length - b.length + 1 + bpos = a.length := by omega
    have low : (polyOf modulus a).degree < (a.length - b.length + 1 + bpos : Nat) := by
      rw [whole]
      exact polyOf_degree a
    have rest := divLoop_poly size unit (a.length - b.length + 1) a [] (by omega) low
    rw [polyOf_nil, mul_zero, add_zero] at rest
    rwa [polyOf_reduce, size, Nat.add_sub_cancel, ← size]

/-- The coefficients cut off from the remainder are zero. -/
theorem modPolys_spec {a b q : List Int} {bpos : Nat} (size : b.length = bpos + 1)
    (quotient : divPolys modulus a b = .ok q)
    (length : q.length = a.length - b.length + 1)
    (rest : degree (polyOf modulus a - polyOf modulus b * polyOf modulus q) < bpos) :
    ∃ r, modPolys modulus a b = .ok r ∧ r.length = b.length - 1 ∧
      polyOf modulus r = polyOf modulus a - polyOf modulus b * polyOf modulus q := by
  have whole : polyOf modulus (subPolys modulus a (mulPolys modulus b q)) =
      polyOf modulus a - polyOf modulus b * polyOf modulus q := by
    rw [subPolys_poly, mulPolys_poly]
  refine ⟨(subPolys modulus a (mulPolys modulus b q)).take (b.length - 1), ?_, ?_, ?_⟩
  · rw [modPolys, quotient]
    rfl
  · rw [List.length_take, subPolys, List.length_map, List.length_range, mulPolys_length, length]
    omega
  · rw [polyOf_take, whole]
    rwa [whole, size, Nat.add_sub_cancel]

/-- Division with remainder, for every dividend at least as long as the divisor. -/
theorem division_with_remainder (a : List Int) {b : List Int} {lead : Int}
    (last : b.getLast? = some lead) (positive : 1 ≤ lead) (small : lead < modulus)
    (longer : b.length ≤ a.length) :
    ∃ q r, divPolys modulus a b = .ok q ∧ modPolys modulus a b = .ok r ∧
      q.length = a.length - b.length + 1 ∧ r.length = b.length - 1 ∧
        polyOf modulus a = polyOf modulus b * polyOf modulus q + polyOf modulus r := by
  obtain ⟨front, rfl⟩ := List.getLast?_eq_some_iff.mp last
  have size : (front ++ [lead]).length = front.length + 1 := by simp
  have unit : @residues modulus (front ++ [lead]) front.length ≠ 0 := by
    intro zero
    have divides := (ZMod.intCast_zmod_eq_zero_iff_dvd lead modulus).mp (by simpa [residues] using zero)
    exact absurd (Int.le_of_dvd (by omega) divides) (by omega)
  obtain ⟨q, quotient, length, _, rest⟩ := divPolys_spec size unit longer
  obtain ⟨r, remainder, length', same⟩ := modPolys_spec size quotient length rest
  refine ⟨q, r, quotient, remainder, length, length', ?_⟩
  rw [same]
  ring

end Prime

end Field

theorem division_with_remainder_sample :
    ∃ q r, divPolys 7 [-3, 9, 12, 5] [8, -1, 3] = .ok q ∧ modPolys 7 [-3, 9, 12, 5] [8, -1, 3] = .ok r ∧
      q.length = 2 ∧ r.length = 2 ∧ polyOf 7 [-3, 9, 12, 5] = polyOf 7 [8, -1, 3] * polyOf 7 q + polyOf 7 r :=
  have : Fact (Nat.Prime 7) := ⟨by decide⟩
  @division_with_remainder 7 _ [-3, 9, 12, 5] [8, -1, 3] 3 rfl (by decide) (by decide) (by decide)

end PolyDivision
