import StatelessEthereum.VerkleStorage

/- Keys as digits of the tree's width. The bits of a key that are left over when
   its digits are cut from the top are in no digit; where none are left over, the
   digits are the key. -/
namespace VerkleKey
open PythonError BigEndian VerkleTrees VerkleStorage

/-- A width of `2 ^ bits` that cuts at least two chunks off a key. -/
structure Cuts (width bits : Nat) : Prop where
  power : width = 2 ^ bits
  positive : 0 < bits
  chunks : 2 * bits ≤ 256

/-- A width that cuts a key into whole chunks. -/
structure Aligned (width bits : Nat) : Prop extends Cuts width bits where
  whole : bits ∣ 256

theorem aligned_hex : Aligned 16 4 := ⟨⟨by decide, by decide, by decide⟩, by decide⟩

theorem aligned_byte : Aligned 256 8 := ⟨⟨by decide, by decide, by decide⟩, by decide⟩

section Chunks
variable {width bits : Nat} (cuts : Cuts width bits)
include cuts

theorem width_positive : 0 < width := by
  rw [cuts.power]
  exact Nat.two_pow_pos bits

theorem bits_eq : width.log2 = bits := by
  rw [cuts.power, Nat.log2_two_pow]

theorem getKeyChunks_ok (key : Bytes) : getKeyChunks width key = .ok (keyChunks width key) := by
  have positive := width_positive cuts
  have power := cuts.power
  have some := cuts.positive
  simp only [getKeyChunks, bits_eq cuts, ← power]
  simp [Nat.ne_of_gt positive, Nat.ne_of_gt some]

/-- The number of digits after the first and before the last. -/
def depth (width : Nat) : Nat := 256 / width.log2 - 2

theorem keyChunks_length (key : Bytes) : (keyChunks width key).length = depth width + 2 := by
  have two : 2 ≤ 256 / bits := (Nat.le_div_iff_mul_le cuts.positive).mpr cuts.chunks
  simp only [keyChunks, List.length_map, List.length_range, depth, bits_eq cuts]
  omega

theorem chunk_lt {key : Bytes} : ∀ c ∈ keyChunks width key, c < width := by
  intro c member
  obtain ⟨i, _, rfl⟩ := List.mem_map.mp member
  have positive := width_positive cuts
  have bound := @Nat.and_le_right (ofBytes key >>> (256 - (i + 1) * width.log2)) (width - 1)
  omega

theorem chunk_testBit (key : Bytes) {i : Nat} (inside : i < 256 / bits) {q : Nat} (low : q < bits) :
    ((keyChunks width key).getD i 0).testBit q =
      (ofBytes key).testBit (256 - (i + 1) * bits + q) := by
  have mask : width - 1 = 2 ^ bits - 1 := by rw [cuts.power]
  simp only [keyChunks, bits_eq cuts, List.getD_eq_getElem?_getD, List.getElem?_map,
    List.getElem?_range inside, Option.map_some, Option.getD_some, Nat.testBit_and, mask,
    Nat.testBit_shiftRight, Nat.testBit_two_pow_sub_one]
  simp [low]

theorem chunk_of_bit {p : Nat} (inside : p < 256) (above : 256 % bits ≤ p) :
    ∃ i < 256 / bits, ∃ q < bits, 256 - (i + 1) * bits + q = p := by
  have positive := cuts.positive
  have parts := Nat.div_add_mod (255 - p) bits
  have low := Nat.mod_lt (255 - p) positive
  have whole := Nat.div_add_mod 256 bits
  have index : (255 - p) / bits < 256 / bits := by
    by_contra far
    have high := Nat.mul_le_mul_left bits (Nat.not_lt.mp far)
    omega
  have next : ((255 - p) / bits + 1) * bits = bits * ((255 - p) / bits) + bits := by ring
  have fit := Nat.mul_le_mul_left bits (Nat.succ_le_of_lt index)
  rw [Nat.mul_succ] at fit
  exact ⟨(255 - p) / bits, index, bits - 1 - (255 - p) % bits, by omega, by omega⟩

/-- Chunks agree exactly where the keys do above the rest. -/
theorem keyChunks_eq_iff (key key' : Word) :
    keyChunks width key.bytes = keyChunks width key'.bytes ↔
      ofBytes key.bytes >>> (256 % bits) = ofBytes key'.bytes >>> (256 % bits) := by
  constructor
  · intro same
    apply Nat.eq_of_testBit_eq
    intro p
    rw [Nat.testBit_shiftRight, Nat.testBit_shiftRight]
    rcases Nat.lt_or_ge (256 % bits + p) 256 with inside | outside
    · obtain ⟨i, index, q, low, place⟩ := chunk_of_bit cuts inside (Nat.le_add_right _ p)
      have left := chunk_testBit cuts key.bytes index low
      have right := chunk_testBit cuts key'.bytes index low
      rw [place] at left right
      rw [← left, ← right, same]
    · have bound (k : Word) : ofBytes k.bytes < 2 ^ (256 % bits + p) := by
        have size := ofBytes_lt k.bytes
        rw [k.size] at size
        calc ofBytes k.bytes < 256 ^ 32 := size
          _ = 2 ^ 256 := by norm_num
          _ ≤ 2 ^ (256 % bits + p) := Nat.pow_le_pow_right (by omega) outside
      rw [Nat.testBit_lt_two_pow (bound key), Nat.testBit_lt_two_pow (bound key')]
  · intro same
    simp only [keyChunks, bits_eq cuts]
    apply List.map_congr_left
    intro i member
    have index : i + 1 ≤ 256 / bits := List.mem_range.mp member
    have fit := Nat.mul_le_mul_right bits index
    have whole := Nat.div_add_mod' 256 bits
    have shift : 256 - (i + 1) * bits = 256 % bits + (256 / bits * bits - (i + 1) * bits) := by
      omega
    rw [shift, Nat.shiftRight_add, Nat.shiftRight_add, same]

omit cuts in
theorem keyChunks_injective (aligned : Aligned width bits) {key key' : Word}
    (same : keyChunks width key.bytes = keyChunks width key'.bytes) : key = key' := by
  have values := (keyChunks_eq_iff aligned.toCuts key key').mp same
  rw [Nat.mod_eq_zero_of_dvd aligned.whole] at values
  have bytes := ofBytes_injective (key.size.trans key'.size.symm) values
  cases key
  cases key'
  simpa using bytes

end Chunks

/- Digits. -/
section Digits
variable (width : Nat) [NeZero width]

def keyDigits (key : Word) : List (Fin width) :=
  (keyChunks width key.bytes).map (Fin.ofNat width)

def stemOf (key : Word) : List (Fin width) := (keyDigits width key).dropLast

def suffixOf (key : Word) : Fin width := (keyDigits width key).getLastD 0

end Digits

section Split
variable {width bits : Nat} [NeZero width] (cuts : Cuts width bits)
include cuts

theorem keyDigits_val (key : Word) :
    (keyDigits width key).map Fin.val = keyChunks width key.bytes := by
  rw [keyDigits, List.map_map]
  conv => rhs; rw [← List.map_id (keyChunks width key.bytes)]
  apply List.map_congr_left
  intro c member
  exact Nat.mod_eq_of_lt (chunk_lt cuts c member)

theorem keyDigits_length (key : Word) : (keyDigits width key).length = depth width + 2 := by
  rw [← keyChunks_length cuts key.bytes, keyDigits, List.length_map]

theorem keyDigits_split (key : Word) :
    keyDigits width key = stemOf width key ++ [suffixOf width key] := by
  have size := keyDigits_length cuts key
  have some : keyDigits width key ≠ [] := by
    intro none
    simp [none] at size
  rw [stemOf, suffixOf, List.getLastD_eq_getLast?, List.getLast?_eq_some_getLast some]
  exact (List.dropLast_append_getLast some).symm

theorem stemOf_length (key : Word) : (stemOf width key).length = depth width + 1 := by
  rw [stemOf, List.length_dropLast, keyDigits_length cuts]
  rfl

theorem stemOf_cons (key : Word) :
    ∃ i k, stemOf width key = i :: k ∧ k.length = depth width := by
  have size := stemOf_length cuts key
  cases shape : stemOf width key with
  | nil => simp [shape] at size
  | cons i k => exact ⟨i, k, rfl, by simpa [shape] using size⟩

theorem splitKey_ok (key : Word) : splitKey width key.bytes =
    .ok ((stemOf width key).map Fin.val, (suffixOf width key).val) := by
  have digits := keyDigits_val cuts key
  rw [keyDigits_split cuts, List.map_append, List.map_singleton] at digits
  simp only [splitKey, key.size, ne_eq, not_true_eq_false, ↓reduceIte, getKeyChunks_ok cuts,
    ← digits, bind, Except.bind, List.getLast?_concat, List.dropLast_concat]

theorem keyDigits_eq_iff (key key' : Word) :
    stemOf width key = stemOf width key' ∧ suffixOf width key = suffixOf width key' ↔
      keyChunks width key.bytes = keyChunks width key'.bytes := by
  rw [← keyDigits_val cuts, ← keyDigits_val cuts]
  constructor
  · rintro ⟨stems, suffixes⟩
    rw [keyDigits_split cuts key, keyDigits_split cuts key', stems, suffixes]
  · intro same
    have digits := List.map_injective_iff.mpr Fin.val_injective same
    rw [stemOf, suffixOf, digits]
    exact ⟨rfl, rfl⟩

omit cuts in
theorem key_injective (aligned : Aligned width bits) {key key' : Word}
    (stems : stemOf width key = stemOf width key')
    (suffixes : suffixOf width key = suffixOf width key') : key = key' :=
  keyChunks_injective aligned ((keyDigits_eq_iff aligned.toCuts key key').mp ⟨stems, suffixes⟩)

end Split

/- Chunks as numbers. -/
section Numbers

theorem chunk_at {width bits : Nat} (cuts : Cuts width bits) (key : Bytes) {i : Nat}
    (inside : i < 256 / bits) : (keyChunks width key)[i]? =
      some (ofBytes key >>> (256 - (i + 1) * bits) % width) := by
  have mask := Nat.and_two_pow_sub_one_eq_mod (ofBytes key >>> (256 - (i + 1) * bits)) bits
  rw [← cuts.power] at mask
  simp only [keyChunks, bits_eq cuts, List.getElem?_map, List.getElem?_range inside, Option.map_some,
    mask]

theorem lastChunk {width bits : Nat} (aligned : Aligned width bits) (key : Bytes) :
    (keyChunks width key).getLast? = some (ofBytes key % width) := by
  have cuts := aligned.toCuts
  have whole := Nat.div_mul_cancel aligned.whole
  have some : 0 < 256 / bits := Nat.div_pos (by have few := cuts.chunks; omega) cuts.positive
  have last := chunk_at cuts key (Nat.sub_lt some Nat.one_pos)
  rw [Nat.sub_add_cancel some, whole, Nat.sub_self, Nat.shiftRight_zero] at last
  rw [List.getLast?_eq_getElem?, keyChunks, List.length_map, List.length_range, bits_eq cuts]
  rwa [keyChunks, bits_eq cuts] at last

theorem word_byte (key : Word) {i : Nat} (inside : i < 32) :
    ∃ x, key.bytes[i]? = some x ∧ ofBytes key.bytes >>> (8 * (31 - i)) % 256 = x.toNat := by
  have within : i < key.bytes.length := by rwa [key.size]
  have here := List.getElem?_eq_getElem within
  have byte := ofBytes_byte here
  rw [key.size] at byte
  exact ⟨_, here, byte⟩

theorem suffixOf_mod {width bits : Nat} [NeZero width] (aligned : Aligned width bits) (key : Word) :
    (suffixOf width key).val = ofBytes key.bytes % width := by
  have digits := keyDigits_val aligned.toCuts key
  rw [keyDigits_split aligned.toCuts, List.map_append, List.map_singleton] at digits
  have chunk := lastChunk aligned key.bytes
  rwa [← digits, List.getLast?_concat, Option.some.injEq] at chunk

theorem suffixOf_last {width bits : Nat} [NeZero width] (aligned : Aligned width bits)
    (narrow : width ≤ 256) (key : Word) :
    ∃ last, key.bytes[31]? = some last ∧ (suffixOf width key).val = last.toNat % width := by
  have divides : width ∣ 256 := by
    rw [aligned.power] at narrow ⊢
    exact Nat.pow_dvd_pow 2 ((Nat.pow_le_pow_iff_right (Nat.one_lt_two)).mp
      (Nat.le_trans narrow (by decide : 256 ≤ 2 ^ 8)))
  obtain ⟨last, here, byte⟩ := word_byte key (show 31 < 32 by decide)
  rw [Nat.sub_self, Nat.mul_zero, Nat.shiftRight_zero] at byte
  exact ⟨last, here, by rw [suffixOf_mod aligned, ← byte, Nat.mod_mod_of_dvd _ divides]⟩

theorem chunks_byte (key : Word) : keyChunks 256 key.bytes = key.bytes.map UInt8.toNat := by
  apply List.ext_getElem?
  intro i
  rcases Nat.lt_or_ge i 32 with inside | outside
  · obtain ⟨x, here, byte⟩ := word_byte key inside
    rw [chunk_at aligned_byte.toCuts key.bytes inside, List.getElem?_map, here, Option.map_some,
      ← byte, show 256 - (i + 1) * 8 = 8 * (31 - i) by omega]
  · rw [List.getElem?_eq_none (by rwa [keyChunks_length aligned_byte.toCuts]),
      List.getElem?_eq_none (by rwa [List.length_map, key.size])]

theorem chunk_hex (key : Word) {i : Nat} (inside : i < 64) : ∃ x, key.bytes[i / 2]? = some x ∧
    (keyChunks 16 key.bytes)[i]? = some (if i % 2 = 0 then x.toNat / 16 else x.toNat % 16) := by
  obtain ⟨x, here, byte⟩ := word_byte key (show i / 2 < 32 by omega)
  refine ⟨x, here, ?_⟩
  rw [chunk_at aligned_hex.toCuts key.bytes inside, Option.some.injEq, ← byte]
  split
  · rw [show 256 - (i + 1) * 4 = 8 * (31 - i / 2) + 4 by omega, Nat.shiftRight_add,
      Nat.shiftRight_eq_div_pow _ 4]
    omega
  · rw [show 256 - (i + 1) * 4 = 8 * (31 - i / 2) by omega]
    omega

end Numbers

end VerkleKey
