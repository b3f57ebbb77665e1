import StatelessEthereum.BigEndian

/- Recursive length prefix, the canonical form: one byte string for each item,
   and a strict reader that accepts nothing else. Lengths are unbounded Nat
   here; the eight-byte limit of a length prefix is the predicate Fits. -/
namespace RlpFormat
open BigEndian

inductive Item where
  | str : Bytes → Item
  | list : List Item → Item

/-- The prefix of a payload: one byte below 56, else a length of its own. -/
def header (base n : Nat) : Bytes :=
  if n < 56 then [UInt8.ofNat (base + n)]
  else UInt8.ofNat (base + 55 + byteLength n) :: minimal n

mutual
def Item.encode : Item → Bytes
  | .str [x] => if x.toNat < 128 then [x] else header 128 1 ++ [x]
  | .str b => header 128 b.length ++ b
  | .list xs => header 192 (encodeAll xs).length ++ encodeAll xs

def encodeAll : List Item → Bytes
  | [] => []
  | x :: xs => x.encode ++ encodeAll xs
end

def Item.payload : Item → Bytes
  | .str b => b
  | .list xs => encodeAll xs

def Item.isList : Item → Bool
  | .str _ => false
  | .list _ => true

/-- The payload length has at most eight bytes. Nested payloads are shorter. -/
def Item.Fits (x : Item) : Prop := x.payload.length < 256 ^ 8

instance (x : Item) : Decidable x.Fits := inferInstanceAs (Decidable (_ < _))

/-- A length of its own has no leading zero and is at least 56. -/
def readLength (size : Nat) (b : Bytes) : Option (Nat × Bytes) :=
  if b.length < size then none
  else if b.head? = some 0 then none
  else if ofBytes (b.take size) < 56 then none
  else some (ofBytes (b.take size), b.drop size)

/-- The kind of the next item, its payload length, and the input from its
    payload on. A single byte below 128 is its own payload. -/
def readHeader : Bytes → Option (Bool × Nat × Bytes)
  | [] => none
  | x :: rest =>
    let n := x.toNat
    if n < 128 then some (false, 1, x :: rest)
    else if n < 184 then
      if n = 129 ∧ rest.head?.all (fun y => y.toNat < 128) then none
      else some (false, n - 128, rest)
    else if n < 192 then (readLength (n - 183) rest).map fun p => (false, p)
    else if n < 248 then some (true, n - 192, rest)
    else (readLength (n - 247) rest).map fun p => (true, p)

mutual
def readItem : Nat → Bytes → Option (Item × Bytes)
  | 0, _ => none
  | fuel + 1, b =>
    match readHeader b with
    | none => none
    | some (isList, len, rest) =>
      if rest.length < len then none
      else if isList then (readAll fuel (rest.take len)).map fun xs => (.list xs, rest.drop len)
      else some (.str (rest.take len), rest.drop len)

def readAll : Nat → Bytes → Option (List Item)
  | _, [] => some []
  | 0, _ :: _ => none
  | fuel + 1, x :: b =>
    match readItem fuel (x :: b) with
    | none => none
    | some (item, rest) => (readAll fuel rest).map (item :: ·)
end

/-- The whole input is one item. Each nesting level and each item of a list
    costs one unit of fuel, so twice the input length is enough. -/
def decode (b : Bytes) : Option Item :=
  match readItem (2 * b.length) b with
  | some (x, []) => some x
  | _ => none

theorem header_length_pos (base n : Nat) : 0 < (header base n).length := by
  unfold header
  split <;> simp

theorem header_length_le (base : Nat) {n : Nat} (small : n < 256 ^ 8) :
    (header base n).length ≤ 9 := by
  unfold header
  split
  · simp
  · simp only [List.length_cons, minimal_length]
    have := byteLength_le small
    omega

theorem encode_str_long {b : Bytes} (long : b.length ≠ 1) :
    (Item.str b).encode = header 128 b.length ++ b := by
  match b with
  | [] => rfl
  | [x] => simp at long
  | x :: y :: rest => rfl

theorem encode_str_single {x : UInt8} (high : ¬ x.toNat < 128) :
    (Item.str [x]).encode = header 128 1 ++ [x] := by
  simp [Item.encode, high]

theorem payload_le_encode (x : Item) : x.payload.length ≤ x.encode.length := by
  cases x with
  | str b =>
    match b with
    | [] => simp [Item.payload]
    | [x] =>
      simp only [Item.payload, Item.encode]
      split <;> simp
    | x :: y :: rest => simp [Item.payload, Item.encode]
  | list xs => simp [Item.payload, Item.encode]

theorem encode_length_pos (x : Item) : 0 < x.encode.length := by
  cases x with
  | str b =>
    match b with
    | [] => simp [Item.encode, header]
    | [x] =>
      simp only [Item.encode]
      split <;> simp
    | x :: y :: rest =>
      have := header_length_pos 128 (x :: y :: rest).length
      simp only [Item.encode, List.length_append]
      omega
  | list xs =>
    have := header_length_pos 192 (encodeAll xs).length
    simp only [Item.encode, List.length_append]
    omega

theorem encode_ne_nil (x : Item) : x.encode ≠ [] := by
  intro empty
  have := encode_length_pos x
  simp [empty] at this

theorem list_payload_lt_encode (xs : List Item) :
    (encodeAll xs).length + 1 ≤ (Item.list xs).encode.length := by
  have := header_length_pos 192 (encodeAll xs).length
  simp only [Item.encode, List.length_append]
  omega

theorem encode_length_le {x : Item} (fits : x.Fits) : x.encode.length ≤ x.payload.length + 9 := by
  cases x with
  | str b =>
    match b with
    | [] => simp [Item.encode, header, Item.payload]
    | [x] =>
      simp only [Item.encode, Item.payload]
      split <;> simp [header]
    | x :: y :: rest =>
      have := header_length_le 128 fits
      simp only [Item.encode, List.length_append, Item.payload] at this ⊢
      omega
  | list xs =>
    have := header_length_le 192 fits
    simp only [Item.encode, List.length_append, Item.payload] at this ⊢
    omega

@[simp] theorem encodeAll_append (xs ys : List Item) :
    encodeAll (xs ++ ys) = encodeAll xs ++ encodeAll ys := by
  induction xs with
  | nil => rfl
  | cons x xs ih => simp [encodeAll, ih]

theorem encode_le_encodeAll {x : Item} {xs : List Item} (member : x ∈ xs) :
    x.encode.length ≤ (encodeAll xs).length := by
  induction xs with
  | nil => simp at member
  | cons y ys ih =>
    simp only [encodeAll, List.length_append]
    rcases List.mem_cons.mp member with same | later
    · subst same; omega
    · have := ih later; omega

theorem encode_lt_list {x : Item} {xs : List Item} (member : x ∈ xs) :
    x.encode.length + 1 ≤ (Item.list xs).encode.length := by
  have := encode_le_encodeAll member
  have := list_payload_lt_encode xs
  omega

theorem fits_member {x : Item} {xs : List Item} (fits : (Item.list xs).Fits)
    (member : x ∈ xs) : x.Fits := by
  have := encode_le_encodeAll member
  have := payload_le_encode x
  unfold Item.Fits at fits ⊢
  simp only [Item.payload] at fits
  omega

theorem fits_tail {x : Item} {xs : List Item} (fits : (Item.list (x :: xs)).Fits) :
    (Item.list xs).Fits := by
  unfold Item.Fits at fits ⊢
  simp only [Item.payload, encodeAll, List.length_append] at fits ⊢
  omega

/- Reading back what was written. -/

theorem readLength_minimal {n : Nat} (long : 56 ≤ n) (rest : Bytes) :
    readLength (byteLength n) (minimal n ++ rest) = some (n, rest) := by
  obtain ⟨x, b, shape, leading⟩ := minimal_leading (by omega : 0 < n)
  have head : (minimal n ++ rest).head? ≠ some 0 := by
    rw [shape]
    simpa using leading
  have taken : (minimal n ++ rest).take (byteLength n) = minimal n := by
    rw [← minimal_length n, List.take_left]
  have dropped : (minimal n ++ rest).drop (byteLength n) = rest := by
    rw [← minimal_length n, List.drop_left]
  unfold readLength
  rw [if_neg (by simp), if_neg head, taken, dropped, ofBytes_minimal, if_neg (by omega)]

theorem byteLength_of_fits {n : Nat} (long : 56 ≤ n) (small : n < 256 ^ 8) :
    1 ≤ byteLength n ∧ byteLength n ≤ 8 :=
  ⟨byteLength_pos (by omega), byteLength_le small⟩

theorem readHeader_list {n : Nat} (small : n < 256 ^ 8) (rest : Bytes) :
    readHeader (header 192 n ++ rest) = some (true, n, rest) := by
  unfold header
  split
  · rename_i short
    have value : (UInt8.ofNat (192 + n)).toNat = 192 + n := by simp; omega
    simp only [List.singleton_append, readHeader, value]
    rw [if_neg (by omega), if_neg (by omega), if_neg (by omega), if_pos (by omega)]
    simp
  · rename_i long
    have sizes := byteLength_of_fits (by omega) small
    have value : (UInt8.ofNat (192 + 55 + byteLength n)).toNat = 247 + byteLength n := by
      simp; omega
    simp only [List.cons_append, readHeader, value]
    rw [if_neg (by omega), if_neg (by omega), if_neg (by omega), if_neg (by omega)]
    have offset : 247 + byteLength n - 247 = byteLength n := by omega
    rw [offset, readLength_minimal (by omega)]
    rfl

theorem readHeader_str {b : Bytes} (fits : (Item.str b).Fits) (rest : Bytes) :
    readHeader ((Item.str b).encode ++ rest) = some (false, b.length, b ++ rest) := by
  have small : b.length < 256 ^ 8 := fits
  by_cases single : b.length = 1
  · obtain ⟨x, rfl⟩ := List.length_eq_one_iff.mp single
    simp only [Item.encode]
    split
    · rename_i low
      simp [readHeader, low]
    · rename_i high
      simp [header, readHeader, high]
  · rw [encode_str_long single, List.append_assoc]
    unfold header
    split
    · rename_i short
      have value : (UInt8.ofNat (128 + b.length)).toNat = 128 + b.length := by simp; omega
      simp only [List.singleton_append, readHeader, value]
      rw [if_neg (by omega), if_pos (by omega)]
      have offset : 128 + b.length - 128 = b.length := by omega
      rw [offset, if_neg (by omega)]
    · rename_i long
      have sizes := byteLength_of_fits (by omega) small
      have value : (UInt8.ofNat (128 + 55 + byteLength b.length)).toNat =
          183 + byteLength b.length := by simp; omega
      simp only [List.cons_append, readHeader, value]
      rw [if_neg (by omega), if_neg (by omega), if_pos (by omega)]
      have offset : 183 + byteLength b.length - 183 = byteLength b.length := by omega
      rw [offset, readLength_minimal (by omega)]
      rfl

mutual
theorem readItem_encode : ∀ (x : Item) (fuel : Nat) (rest : Bytes), x.Fits →
    2 * x.encode.length ≤ fuel → readItem fuel (x.encode ++ rest) = some (x, rest)
  | .str b, fuel, rest, fits, enough => by
    have positive := encode_length_pos (.str b)
    obtain ⟨fuel, rfl⟩ : ∃ k, fuel = k + 1 := ⟨fuel - 1, by omega⟩
    simp only [readItem, readHeader_str fits]
    simp
  | .list xs, fuel, rest, fits, enough => by
    have positive := encode_length_pos (.list xs)
    obtain ⟨fuel, rfl⟩ : ∃ k, fuel = k + 1 := ⟨fuel - 1, by omega⟩
    have shorter := list_payload_lt_encode xs
    have inside := readAll_encode xs fuel fits (by omega)
    have found := readHeader_list (n := (encodeAll xs).length) fits (encodeAll xs ++ rest)
    simp only [Item.encode, List.append_assoc, readItem, found]
    simp [inside]

theorem readAll_encode : ∀ (xs : List Item) (fuel : Nat), (Item.list xs).Fits →
    2 * (encodeAll xs).length + 1 ≤ fuel → readAll fuel (encodeAll xs) = some xs
  | [], fuel, _, _ => by
    cases fuel <;> rfl
  | x :: xs, fuel, fits, enough => by
    have positive := encode_length_pos x
    simp only [encodeAll, List.length_append] at enough ⊢
    obtain ⟨fuel, rfl⟩ : ∃ k, fuel = k + 1 := ⟨fuel - 1, by omega⟩
    have first := readItem_encode x fuel (encodeAll xs)
      (fits_member fits (by simp)) (by omega)
    have others := readAll_encode xs fuel (fits_tail fits) (by omega)
    cases shape : x.encode ++ encodeAll xs with
    | nil => simp [encode_ne_nil] at shape
    | cons y ys =>
      rw [shape] at first
      simp only [readAll, first, others]
      rfl
end

theorem decode_encode (x : Item) (fits : x.Fits) : decode x.encode = some x := by
  have read := readItem_encode x (2 * x.encode.length) [] fits (Nat.le_refl _)
  rw [List.append_nil] at read
  unfold decode
  rw [read]

/- Strictness: what is read is the encoding of the result. -/

theorem readLength_sound {size n : Nat} {b rest : Bytes} (positive : 1 ≤ size) (bounded : size ≤ 8)
    (read : readLength size b = some (n, rest)) :
    56 ≤ n ∧ n < 256 ^ 8 ∧ byteLength n = size ∧ b = minimal n ++ rest := by
  unfold readLength at read
  split at read
  · simp at read
  · rename_i enough
    split at read
    · simp at read
    · rename_i leading
      split at read
      · simp at read
      · rename_i long
        simp only [Option.some.injEq, Prod.mk.injEq] at read
        obtain ⟨value, others⟩ := read
        cases b with
        | nil => simp at enough; omega
        | cons x b =>
          obtain ⟨size, rfl⟩ : ∃ k, size = k + 1 := ⟨size - 1, by omega⟩
          rw [List.take_succ_cons] at value long
          simp only [List.head?_cons, Option.some.injEq] at leading
          have shortest := minimal_ofBytes x (b.take size) leading
          have upper := ofBytes_lt (x :: b.take size)
          have len : (x :: b.take size).length = size + 1 := by
            simp only [List.length_cons, List.length_take] at enough ⊢
            omega
          rw [len] at upper
          rw [value] at shortest upper long
          refine ⟨by omega, Nat.lt_of_lt_of_le upper (Nat.pow_le_pow_right (by omega) bounded), ?_, ?_⟩
          · rw [← minimal_length, shortest, len]
          · rw [shortest, ← others]
            simp

theorem readHeader_long (base : Nat) {size n : Nat} {x : UInt8} {b rest : Bytes} (positive : 1 ≤ size)
    (bounded : size ≤ 8) (prefixed : x.toNat = base + 55 + size)
    (read : readLength size b = some (n, rest)) :
    n < 256 ^ 8 ∧ 56 ≤ n ∧ x :: b = header base n ++ rest := by
  obtain ⟨long, small, exact, split⟩ := readLength_sound positive bounded read
  refine ⟨small, long, ?_⟩
  rw [header, if_neg (by omega), exact, ← prefixed, split]
  simp

theorem header_short (base : Nat) {n : Nat} {x : UInt8} (short : n < 56) (value : x.toNat = base + n)
    (rest : Bytes) : x :: rest = header base n ++ rest := by
  rw [header, if_pos short, ← value]
  simp

theorem readHeader_sound_list {b rest : Bytes} {n : Nat}
    (read : readHeader b = some (true, n, rest)) : n < 256 ^ 8 ∧ b = header 192 n ++ rest := by
  cases b with
  | nil => simp [readHeader] at read
  | cons x b =>
    have digit := x.toNat_lt
    simp only [readHeader] at read
    split at read
    · simp at read
    · split at read
      · split at read <;> simp at read
      · split at read
        · simp at read
        · split at read
          · simp only [Option.some.injEq, Prod.mk.injEq, true_and] at read
            obtain ⟨value, same⟩ := read
            subst same
            exact ⟨by omega, header_short 192 (by omega) (by omega) _⟩
          · simp only [Option.map_eq_some_iff, Prod.mk.injEq, true_and] at read
            obtain ⟨p, inner, same⟩ := read
            subst same
            have long := readHeader_long 192 (x := x) (by omega) (by omega) (by omega) inner
            exact ⟨long.1, long.2.2⟩

theorem readHeader_sound_str {b rest : Bytes} {n : Nat}
    (read : readHeader b = some (false, n, rest)) (enough : n ≤ rest.length) :
    n < 256 ^ 8 ∧ b = (Item.str (rest.take n)).encode ++ rest.drop n := by
  cases b with
  | nil => simp [readHeader] at read
  | cons x b =>
    have digit := x.toNat_lt
    simp only [readHeader] at read
    split at read
    · rename_i low
      simp only [Option.some.injEq, Prod.mk.injEq, true_and] at read
      obtain ⟨rfl, rfl⟩ := read
      simp [Item.encode, low]
    · split at read
      · split at read
        · simp at read
        · rename_i notlow
          simp only [Option.some.injEq, Prod.mk.injEq, true_and] at read
          obtain ⟨value, same⟩ := read
          subst same
          have shape := header_short 128 (n := n) (x := x) (by omega) (by omega) b
          refine ⟨by omega, ?_⟩
          rw [shape]
          by_cases single : n = 1
          · cases b with
            | nil => simp [single] at enough
            | cons y more =>
              have high : ¬ y.toNat < 128 := by
                intro low
                exact notlow ⟨by omega, by simpa using low⟩
              subst single
              change header 128 1 ++ y :: more = (Item.str [y]).encode ++ more
              rw [encode_str_single high, List.append_assoc]
              rfl
          · have taken : (b.take n).length = n := by rw [List.length_take]; omega
            rw [encode_str_long (by omega), taken, List.append_assoc, List.take_append_drop]
      · split at read
        · simp only [Option.map_eq_some_iff, Prod.mk.injEq, true_and] at read
          obtain ⟨p, inner, same⟩ := read
          subst same
          obtain ⟨small, long, shape⟩ :=
            readHeader_long 128 (x := x) (by omega) (by omega) (by omega) inner
          have taken : (rest.take n).length = n := by rw [List.length_take]; omega
          refine ⟨small, ?_⟩
          rw [encode_str_long (by omega), taken, List.append_assoc, List.take_append_drop]
          exact shape
        · split at read
          · simp at read
          · simp at read

mutual
theorem readItem_sound : ∀ (fuel : Nat) (b rest : Bytes) (x : Item),
    readItem fuel b = some (x, rest) → x.Fits ∧ b = x.encode ++ rest
  | 0, _, _, _, read => by simp [readItem] at read
  | fuel + 1, b, rest, x, read => by
    simp only [readItem] at read
    split at read
    · simp at read
    · rename_i isList len tail found
      split at read
      · simp at read
      · rename_i enough
        split at read
        · rename_i listed
          subst listed
          simp only [Option.map_eq_some_iff, Prod.mk.injEq] at read
          obtain ⟨xs, inside, rfl, rfl⟩ := read
          obtain ⟨small, shape⟩ := readHeader_sound_list found
          have content := readAll_sound fuel _ _ inside
          have size : (encodeAll xs).length = len := by
            rw [← content, List.length_take]; omega
          refine ⟨by simpa [Item.Fits, Item.payload, size] using small, ?_⟩
          rw [shape, Item.encode, size, ← content, List.append_assoc, List.take_append_drop]
        · rename_i notlist
          have string : isList = false := by simpa using notlist
          subst string
          simp only [Option.some.injEq, Prod.mk.injEq] at read
          obtain ⟨rfl, rfl⟩ := read
          obtain ⟨small, shape⟩ := readHeader_sound_str found (by omega)
          refine ⟨?_, shape⟩
          simp only [Item.Fits, Item.payload, List.length_take]
          omega

theorem readAll_sound : ∀ (fuel : Nat) (b : Bytes) (xs : List Item),
    readAll fuel b = some xs → b = encodeAll xs
  | fuel, [], xs, read => by
    have : xs = [] := by cases fuel <;> simpa [readAll] using read.symm
    simp [this, encodeAll]
  | 0, _ :: _, _, read => by simp [readAll] at read
  | fuel + 1, y :: b, xs, read => by
    simp only [readAll] at read
    split at read
    · simp at read
    · rename_i item rest first
      simp only [Option.map_eq_some_iff] at read
      obtain ⟨others, later, rfl⟩ := read
      have head := (readItem_sound fuel _ _ _ first).2
      have tail := readAll_sound fuel _ _ later
      rw [head, tail, encodeAll]
end

theorem encode_decode {b : Bytes} {x : Item} (read : decode b = some x) :
    x.Fits ∧ x.encode = b := by
  unfold decode at read
  split at read
  · rename_i found
    simp only [Option.some.injEq] at read
    subst read
    have sound := readItem_sound _ _ _ _ found
    exact ⟨sound.1, by simpa using sound.2.symm⟩
  · simp at read

theorem decode_eq_some_iff (b : Bytes) (x : Item) :
    decode b = some x ↔ x.Fits ∧ x.encode = b := by
  constructor
  · exact encode_decode
  · rintro ⟨fits, rfl⟩
    exact decode_encode x fits

theorem encode_injective {x y : Item} (hx : x.Fits) (hy : y.Fits)
    (same : x.encode = y.encode) : x = y := by
  have read := decode_encode x hx
  rw [same, decode_encode y hy] at read
  exact (Option.some.inj read).symm

end RlpFormat
