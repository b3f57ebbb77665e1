import StatelessEthereum.EvaluationDomain
import Mathlib.Data.Nat.Bitwise

/- The discrete Fourier transform in place: passes of steps that do not meet,
   indices with their bits mirrored, and rounds of butterflies. -/
namespace ButterflyNetwork
open EvaluationDomain

/- Passes. -/
section Passes
variable {Step α : Type} {act : Step → (Nat → α) → Nat → α} {places : Step → Nat → Prop}

def pass (act : Step → (Nat → α) → Nat → α) (turns : List Step) (x : Nat → α) : Nat → α :=
  turns.foldl (fun x t => act t x) x

/-- A step leaves the entries off its places alone, and does not read them. -/
structure Confined (act : Step → (Nat → α) → Nat → α) (places : Step → Nat → Prop) : Prop where
  spares : ∀ t x j, ¬ places t j → act t x j = x j
  reads : ∀ t x x', (∀ j, places t j → x j = x' j) → ∀ j, places t j → act t x j = act t x' j

theorem pass_untouched (confined : Confined act places) {turns : List Step} {j : Nat}
    (apart : ∀ t ∈ turns, ¬ places t j) (x : Nat → α) : pass act turns x j = x j := by
  induction turns generalizing x with
  | nil => rfl
  | cons t turns ih =>
    change pass act turns (act t x) j = x j
    rw [ih (fun t' member => apart t' (List.mem_cons_of_mem _ member)),
      confined.spares t x j (apart t List.mem_cons_self)]

theorem pass_entry (confined : Confined act places) {turns : List Step}
    (apart : turns.Pairwise fun t t' => ∀ j, places t j → ¬ places t' j) {t : Step}
    (member : t ∈ turns) {j : Nat} (touched : places t j) (x : Nat → α) :
    pass act turns x j = act t x j := by
  induction turns generalizing x with
  | nil => simp at member
  | cons first turns ih =>
    change pass act turns (act first x) j = act t x j
    obtain ⟨off, apart⟩ := List.pairwise_cons.mp apart
    rcases List.mem_cons.mp member with rfl | later
    · exact pass_untouched confined (fun t' inside => off t' inside j touched) _
    · rw [ih apart later]
      apply confined.reads t _ _ _ j touched
      intro i place
      exact confined.spares first x i fun meets => off t later i meets place

/-- A loop over states is a pass over what they show. -/
theorem foldl_shows {State : Type} {step : State → Step → State} {shown : State → Nat → α}
    {Sound : State → Prop} {turns : List Step}
    (each : ∀ t ∈ turns, ∀ s, Sound s → Sound (step s t) ∧ shown (step s t) = act t (shown s))
    {s : State} (sound : Sound s) :
    Sound (turns.foldl step s) ∧ shown (turns.foldl step s) = pass act turns (shown s) := by
  induction turns generalizing s with
  | nil => exact ⟨sound, rfl⟩
  | cons t turns ih =>
    obtain ⟨kept, moved⟩ := each t List.mem_cons_self s sound
    have rest := ih (fun t' member => each t' (List.mem_cons_of_mem _ member)) kept
    rw [moved] at rest
    exact rest

def exchange (partner : Nat → Nat) (i : Nat) (x : Nat → α) (j : Nat) : α :=
  if i < partner i then
    if j = i then x (partner i) else if j = partner i then x i else x j
  else x j

theorem exchange_confined (partner : Nat → Nat) : Confined (exchange (α := α) partner)
    fun i j => i < partner i ∧ (j = i ∨ j = partner i) := by
  constructor
  · intro i x j off
    unfold exchange
    grind
  · intro i x x' same j place
    have here := same i ⟨place.1, Or.inl rfl⟩
    have there := same (partner i) ⟨place.1, Or.inr rfl⟩
    unfold exchange
    grind

theorem exchanged {partner : Nat → Nat} (back : ∀ i, partner (partner i) = i) {n : Nat}
    (x : Nat → α) {j : Nat} (inside : j < n) :
    pass (exchange partner) (List.range n) x j = x (partner j) := by
  have apart : (List.range n).Pairwise fun i i' => ∀ j, i < partner i ∧ (j = i ∨ j = partner i) →
      ¬ (i' < partner i' ∧ (j = i' ∨ j = partner i')) := by
    apply List.nodup_range.imp
    intro i i' other j
    have := back i
    have := back i'
    grind
  have self := back j
  rcases Nat.lt_trichotomy j (partner j) with low | same | high
  · rw [pass_entry (exchange_confined partner) apart (List.mem_range.mpr inside)
      ⟨low, Or.inl rfl⟩]
    simp [exchange, low]
  · rw [pass_untouched (exchange_confined partner), ← same]
    intro i _
    have := back i
    grind
  · have there : partner j < partner (partner j) := by rwa [self]
    rw [pass_entry (exchange_confined partner) apart
      (List.mem_range.mpr (Nat.lt_trans high inside)) ⟨there, Or.inr self.symm⟩]
    have other : j ≠ partner j := by omega
    simp [exchange, self, high, other]

end Passes

/- Mirrored indices. -/

/-- The lowest bits of an index, as many as given, in the opposite order. -/
def mirror : Nat → Nat → Nat
  | 0, _ => 0
  | k + 1, i => i % 2 * 2 ^ k + mirror k (i / 2)

theorem mirror_lt (k i : Nat) : mirror k i < 2 ^ k := by
  induction k generalizing i with
  | zero => simp [mirror]
  | succ k ih =>
    have low := ih (i / 2)
    have bit : i % 2 * 2 ^ k ≤ 1 * 2 ^ k := Nat.mul_le_mul_right _ (by omega)
    rw [mirror, pow_succ]
    omega

theorem mirror_even (k i : Nat) : mirror (k + 1) (2 * i) = mirror k i := by
  simp [mirror]

theorem mirror_odd (k i : Nat) : mirror (k + 1) (2 * i + 1) = 2 ^ k + mirror k i := by
  rw [mirror, show (2 * i + 1) % 2 = 1 by omega, show (2 * i + 1) / 2 = i by omega, one_mul]

theorem mirror_low {k i : Nat} (low : i < 2 ^ k) : mirror (k + 1) i = 2 * mirror k i := by
  induction k generalizing i with
  | zero => simp [mirror, show i = 0 by omega]
  | succ k ih =>
    rw [pow_succ] at low
    rw [mirror, ih (show i / 2 < 2 ^ k by omega), mirror, pow_succ]
    ring

theorem mirror_high {k i : Nat} (low : i < 2 ^ k) :
    mirror (k + 1) (2 ^ k + i) = 2 * mirror k i + 1 := by
  induction k generalizing i with
  | zero => simp [mirror, show i = 0 by omega]
  | succ k ih =>
    have parity : (2 ^ (k + 1) + i) % 2 = i % 2 := by rw [pow_succ]; omega
    have half : (2 ^ (k + 1) + i) / 2 = 2 ^ k + i / 2 := by rw [pow_succ]; omega
    rw [pow_succ] at low
    rw [mirror, parity, half, ih (show i / 2 < 2 ^ k by omega), mirror, pow_succ]
    ring

theorem mirror_mirror {k i : Nat} (inside : i < 2 ^ k) : mirror k (mirror k i) = i := by
  induction k generalizing i with
  | zero => simp [mirror, show i = 0 by omega]
  | succ k ih =>
    rw [pow_succ] at inside
    obtain ⟨m, rfl | rfl⟩ := Nat.even_or_odd' i
    · rw [mirror_even, mirror_low (mirror_lt k m), ih (by omega)]
    · rw [mirror_odd, mirror_high (mirror_lt k m), ih (by omega)]

theorem mirror_testBit (k i c : Nat) :
    (mirror k i).testBit c = (decide (c < k) && i.testBit (k - 1 - c)) := by
  induction k generalizing i with
  | zero => simp [mirror]
  | succ k ih =>
    have below := mirror_lt k (i / 2)
    have shape : mirror (k + 1) i = 2 ^ k * (i % 2) + mirror k (i / 2) := by
      rw [mirror, mul_comm]
    rw [shape, Nat.testBit_two_pow_mul_add _ below, ih]
    split
    · rename_i low
      rw [show k + 1 - 1 - c = k - 1 - c + 1 by omega, Nat.testBit_succ]
      simp [low, show c < k + 1 by omega]
    · rename_i high
      rcases Nat.eq_or_lt_of_le (Nat.le_of_not_lt high) with rfl | beyond
      · simp
      · have outside : ¬ c < k + 1 := by omega
        obtain ⟨d, shift⟩ : ∃ d, c - k = d + 1 := ⟨c - k - 1, by omega⟩
        rw [shift, Nat.testBit_succ]
        simp [outside]

/- Butterflies. -/
section Rounds
variable {F : Type} [Field F]

/-- One butterfly: the entries at `p` and at `p + half`, the second one scaled. -/
def cross (half : Nat) (c : F) (p : Nat) (x : Nat → F) (j : Nat) : F :=
  if j = p then x p + c * x (p + half)
  else if j = p + half then x p - c * x (p + half)
  else x j

/-- The butterflies of a round, block after block. -/
def turns (count half : Nat) : List (Nat × Nat) :=
  (List.range count).flatMap fun block => (List.range half).map fun k => (block, k)

def round (twiddle : Nat → F) (count half : Nat) (x : Nat → F) : Nat → F :=
  pass (fun t => cross half (twiddle t.2) (t.1 * (2 * half) + t.2)) (turns count half) x

theorem turns_member {count half block k : Nat} :
    (block, k) ∈ turns count half ↔ block < count ∧ k < half := by
  simp [turns]

theorem turns_nodup (count half : Nat) : (turns count half).Nodup := by
  unfold turns
  rw [List.nodup_flatMap]
  constructor
  · intro block _
    exact List.nodup_range.map fun k k' same => (Prod.mk.inj same).2
  · apply List.nodup_range.imp
    intro block block' other
    simp only [Function.onFun, List.disjoint_left, List.mem_map]
    rintro t ⟨k, _, rfl⟩ ⟨k', _, same⟩
    exact other (Prod.mk.inj same).1.symm

theorem cross_confined (twiddle : Nat → F) (half : Nat) :
    Confined (fun t : Nat × Nat => cross half (twiddle t.2) (t.1 * (2 * half) + t.2))
      fun t j => j = t.1 * (2 * half) + t.2 ∨ j = t.1 * (2 * half) + t.2 + half := by
  constructor
  · intro t x j off
    unfold cross
    grind
  · intro t x x' same j _
    have here := same _ (Or.inl rfl)
    have there := same _ (Or.inr rfl)
    unfold cross
    grind

theorem turns_apart (count half : Nat) : (turns count half).Pairwise fun t t' =>
    ∀ j, j = t.1 * (2 * half) + t.2 ∨ j = t.1 * (2 * half) + t.2 + half →
      ¬ (j = t'.1 * (2 * half) + t'.2 ∨ j = t'.1 * (2 * half) + t'.2 + half) := by
  refine (turns_nodup count half).imp_of_mem ?_
  rintro ⟨block, k⟩ ⟨block', k'⟩ member member' other j place place'
  have low := (turns_member.mp member).2
  have low' := (turns_member.mp member').2
  have divided {b c : Nat} (small : c < half) : (b * (2 * half) + c) / (2 * half) = b ∧
      (b * (2 * half) + c + half) / (2 * half) = b := by
    constructor
    · rw [Nat.div_eq_iff (by omega)]
      constructor <;> omega
    · rw [Nat.div_eq_iff (by omega)]
      constructor <;> omega
  have blocks : block = block' := by
    rcases place with rfl | rfl <;> rcases place' with same | same <;>
      have := congrArg (· / (2 * half)) same <;>
      simpa [divided low, divided low'] using this
  subst blocks
  have steps : k = k' := by
    simp only at place place'
    omega
  exact other (by rw [steps])

theorem round_entry (twiddle : Nat → F) {count half block k : Nat} (inside : block < count)
    (low : k < half) (x : Nat → F) :
    round twiddle count half x (block * (2 * half) + k) =
      x (block * (2 * half) + k) + twiddle k * x (block * (2 * half) + k + half) ∧
    round twiddle count half x (block * (2 * half) + k + half) =
      x (block * (2 * half) + k) - twiddle k * x (block * (2 * half) + k + half) := by
  have member := turns_member.mpr ⟨inside, low⟩
  constructor
  · rw [round, pass_entry (cross_confined twiddle half) (turns_apart count half) member
      (Or.inl rfl)]
    simp [cross]
  · rw [round, pass_entry (cross_confined twiddle half) (turns_apart count half) member
      (Or.inr rfl)]
    have other : ¬ half = 0 := by omega
    simp [cross, other]

/-- The rounds of a transform of size `2 ^ k`. -/
def rounds (w : F) (k : Nat) : Nat → (Nat → F) → Nat → F
  | 0, x => x
  | r + 1, x => round (fun i => w ^ (i * 2 ^ (k - (r + 1)))) (2 ^ (k - (r + 1))) (2 ^ r)
      (rounds w k r x)

omit [Field F] in
theorem joined_blocks (x : Nat → F) (r block : Nat) :
    (fun l => x (2 * block * 2 ^ r + mirror r l)) =
      (fun l => x (block * (2 * 2 ^ r) + mirror (r + 1) (2 * l))) ∧
    (fun l => x ((2 * block + 1) * 2 ^ r + mirror r l)) =
      fun l => x (block * (2 * 2 ^ r) + mirror (r + 1) (2 * l + 1)) := by
  constructor
  · funext l
    rw [mirror_even, show 2 * block * 2 ^ r = block * (2 * 2 ^ r) by ring]
  · funext l
    rw [mirror_odd, ← add_assoc, show (2 * block + 1) * 2 ^ r = block * (2 * 2 ^ r) + 2 ^ r by ring]

theorem rounds_blocks {w : F} {k : Nat} (turn : ∀ m, k = m + 1 → w ^ 2 ^ m = -1) (x : Nat → F)
    {r : Nat} (few : r ≤ k) {block i : Nat} (inside : block < 2 ^ (k - r)) (low : i < 2 ^ r) :
    rounds w k r x (block * 2 ^ r + i) =
      dft (w ^ 2 ^ (k - r)) (2 ^ r) (fun l => x (block * 2 ^ r + mirror r l)) i := by
  induction r generalizing block i with
  | zero => simp [rounds, dft, mirror, show i = 0 by omega]
  | succ r ih =>
    obtain ⟨m, rfl⟩ : ∃ m, k = m + 1 := ⟨k - 1, by omega⟩
    have deeper : m + 1 - r = m + 1 - (r + 1) + 1 := by omega
    have root : (w ^ 2 ^ (m + 1 - (r + 1))) ^ 2 = w ^ 2 ^ (m + 1 - r) := by
      rw [← pow_mul, ← pow_succ, ← deeper]
    have half : (w ^ 2 ^ (m + 1 - (r + 1))) ^ 2 ^ r = -1 := by
      rw [← pow_mul, ← pow_add, show m + 1 - (r + 1) + r = m by omega, turn m rfl]
    have scale (i : Nat) : w ^ (i * 2 ^ (m + 1 - (r + 1))) = (w ^ 2 ^ (m + 1 - (r + 1))) ^ i := by
      rw [← pow_mul, mul_comm]
    have inner : 2 ^ (m + 1 - r) = 2 * 2 ^ (m + 1 - (r + 1)) := by rw [deeper, pow_succ, mul_comm]
    obtain ⟨evens, odds⟩ := joined_blocks x r block
    have first (i : Nat) (low : i < 2 ^ r) : rounds w (m + 1) r x (block * (2 * 2 ^ r) + i) =
        dft (w ^ 2 ^ (m + 1 - r)) (2 ^ r)
          (fun l => x (block * (2 * 2 ^ r) + mirror (r + 1) (2 * l))) i := by
      rw [show block * (2 * 2 ^ r) + i = 2 * block * 2 ^ r + i by ring,
        ih (by omega) (by omega) low, evens]
    have second (i : Nat) (low : i < 2 ^ r) :
        rounds w (m + 1) r x (block * (2 * 2 ^ r) + i + 2 ^ r) =
          dft (w ^ 2 ^ (m + 1 - r)) (2 ^ r)
            (fun l => x (block * (2 * 2 ^ r) + mirror (r + 1) (2 * l + 1))) i := by
      rw [show block * (2 * 2 ^ r) + i + 2 ^ r = (2 * block + 1) * 2 ^ r + i by ring,
        ih (by omega) (by omega) low, odds]
    have entry {i : Nat} (low : i < 2 ^ r) := round_entry
      (fun i => w ^ (i * 2 ^ (m + 1 - (r + 1)))) inside low (rounds w (m + 1) r x)
    rw [show 2 ^ (r + 1) = 2 * 2 ^ r by rw [pow_succ, mul_comm]] at low ⊢
    by_cases lower : i < 2 ^ r
    · rw [rounds, (entry lower).1, first i lower, second i lower, scale, dft_split, root]
    · obtain ⟨i, rfl⟩ : ∃ j, i = j + 2 ^ r := ⟨i - 2 ^ r, by omega⟩
      have lower : i < 2 ^ r := by omega
      rw [rounds, ← add_assoc, (entry lower).2, first i lower, second i lower, scale,
        dft_upper half, root]

theorem rounds_dft {w : F} {k : Nat} (root : IsPrimitiveRoot w (2 ^ k)) (x : Nat → F) {i : Nat}
    (inside : i < 2 ^ k) :
    rounds w k k x i = dft w (2 ^ k) (fun l => x (mirror k l)) i := by
  have turn (m : Nat) (more : k = m + 1) : w ^ 2 ^ m = -1 := by
    subst more
    rw [pow_succ, mul_comm] at root
    exact half_turn root (Nat.two_pow_pos m)
  have whole := rounds_blocks turn x (Nat.le_refl k) (show 0 < 2 ^ (k - k) by simp) inside
  simpa using whole

end Rounds

end ButterflyNetwork
