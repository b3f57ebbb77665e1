import StatelessEthereum.BigEndian

/- The exceptions the modelled code can raise, with the texts it gives them.
   Texts that the interpreter or a library words itself are left out. -/
namespace PythonError
open BigEndian

/-- The interpreter's limit: a byte string object, header included, has at most
    `PY_SSIZE_T_MAX` bytes. -/
def MAX_BYTES : Nat := 2 ^ 63 - 34

structure ByteString where
  bytes : Bytes
  fits : bytes.length ≤ MAX_BYTES

inductive PyError where
  | keyError : String → PyError
  | valueError : String → PyError
  | typeError : String → PyError
  | indexError : PyError
  | assertionError : String → PyError
  | attributeError : PyError
  | overflowError : String → PyError
  | decodingError : PyError
  | recursionError : PyError
  | zeroDivisionError : PyError
  | structError : PyError
  | fileNotFoundError : String → PyError
  | runtimeError : String → PyError
  /-- Not an exception: the code would never return. -/
  | diverges : PyError
  deriving DecidableEq, Repr

theorem ok_of_bind {ε α β : Type} {x : Except ε α} {f : α → Except ε β} {b : β}
    (run : x >>= f = .ok b) : ∃ a, x = .ok a ∧ f a = .ok b := by
  cases x with
  | error e => simp [bind, Except.bind] at run
  | ok a => exact ⟨a, rfl, run⟩

theorem ok_of_toOption {ε α : Type} {x : Except ε α} {a : α} (value : x.toOption = some a) :
    x = .ok a := by
  cases x with
  | error e => simp [Except.toOption] at value
  | ok b =>
    cases value
    rfl

/-- A loop whose every step returns normally. -/
theorem mapM_ok {ε α β : Type} {f : α → Except ε β} {R : α → β → Prop} {l : List α}
    (each : ∀ a ∈ l, ∃ b, f a = .ok b ∧ R a b) :
    ∃ bs, l.mapM f = .ok bs ∧ List.Forall₂ R l bs := by
  induction l with
  | nil => exact ⟨[], rfl, .nil⟩
  | cons a l ih =>
    obtain ⟨b, run, holds⟩ := each a List.mem_cons_self
    obtain ⟨bs, runs, rest⟩ := ih fun c member => each c (List.mem_cons_of_mem _ member)
    refine ⟨b :: bs, ?_, .cons holds rest⟩
    simp only [List.mapM_cons, run, runs, bind, Except.bind, pure, Except.pure]

theorem mapM_eq {ε α β : Type} {f : α → Except ε β} {g : α → β} {l : List α}
    (each : ∀ a ∈ l, f a = .ok (g a)) : l.mapM f = .ok (l.map g) := by
  induction l with
  | nil => rfl
  | cons a l ih =>
    have here := each a List.mem_cons_self
    have rest := ih fun b member => each b (List.mem_cons_of_mem _ member)
    simp only [List.map_cons, List.mapM_cons, here, rest, bind, Except.bind, pure, Except.pure]

theorem mapM_map_ok {ε α β γ : Type} {f : β → Except ε γ} {h : α → β} {g : α → γ} {l : List α}
    (each : ∀ a ∈ l, f (h a) = .ok (g a)) : (l.map h).mapM f = .ok (l.map g) := by
  induction l with
  | nil => rfl
  | cons a l ih =>
    have here := each a List.mem_cons_self
    have rest := ih fun b member => each b (List.mem_cons_of_mem _ member)
    simp only [List.map_cons, List.mapM_cons, here, rest, bind, Except.bind, pure, Except.pure]

theorem mapM_cons_inv {ε α β : Type} {f : α → Except ε β} {a : α} {as : List α} {bs : List β}
    (run : (a :: as).mapM f = .ok bs) :
    ∃ b rest, f a = .ok b ∧ as.mapM f = .ok rest ∧ bs = b :: rest := by
  rw [List.mapM_cons] at run
  obtain ⟨b, first, run⟩ := ok_of_bind run
  obtain ⟨rest, later, run⟩ := ok_of_bind run
  cases run
  exact ⟨b, rest, first, later, rfl⟩

/-- Every result of a loop comes from the step at its place. -/
theorem mapM_inv {ε α β : Type} {f : α → Except ε β} {as : List α} {bs : List β}
    (run : as.mapM f = .ok bs) : List.Forall₂ (fun a b => f a = .ok b) as bs := by
  induction as generalizing bs with
  | nil =>
    cases run
    exact .nil
  | cons a as ih =>
    obtain ⟨b, rest, first, later, rfl⟩ := mapM_cons_inv run
    exact .cons first (ih later)

theorem mapM_of_each {ε α β : Type} {f : α → Except ε β} {as : List α} {bs : List β}
    (each : List.Forall₂ (fun a b => f a = .ok b) as bs) : as.mapM f = .ok bs := by
  induction each with
  | nil => rfl
  | cons first _ ih => simp only [List.mapM_cons, first, ih, bind, Except.bind, pure, Except.pure]

theorem each_at {α β : Type} {R : α → β → Prop} {as : List α} {bs : List β}
    (each : List.Forall₂ R as bs) {i : Nat} {a : α} (found : as[i]? = some a) :
    ∃ b, bs[i]? = some b ∧ R a b := by
  induction each generalizing i with
  | nil => simp at found
  | cons first _ ih =>
    cases i with
    | zero =>
      cases found
      exact ⟨_, rfl, first⟩
    | succ i => exact ih found

theorem mapM_at {ε α β : Type} {f : α → Except ε β} {as : List α} {bs : List β}
    (run : as.mapM f = .ok bs) {i : Nat} {a : α} (found : as[i]? = some a) :
    ∃ b, f a = .ok b ∧ bs[i]? = some b := by
  obtain ⟨b, here, same⟩ := each_at (mapM_inv run) found
  exact ⟨b, same, here⟩

/-- `l[i]`, where a negative index counts from the end. -/
def listIndex {α : Type} (l : List α) (i : Int) : Option α :=
  if 0 ≤ i then l[i.toNat]? else if -i ≤ l.length then l[(l.length + i).toNat]? else none

theorem listIndex_nat {α : Type} (l : List α) (i : Nat) : listIndex l (i : Int) = l[i]? := by
  rw [listIndex, if_pos (Int.natCast_nonneg i), Int.toNat_natCast]

/-- `int.to_bytes(len, 'big')` -/
def intToBytes (len n : Nat) : Except PyError Bytes :=
  if n < 256 ^ len then .ok (toBytes len n) else .error (.overflowError "")

/-- `bytes(ints)`, which `int.from_bytes` also does to a sequence it is given. -/
def bytesOf : List Nat → Except PyError Bytes
  | [] => .ok []
  | n :: rest =>
    if n < 256 then do
      let tail ← bytesOf rest
      .ok (UInt8.ofNat n :: tail)
    else .error (.valueError "bytes must be in range(0, 256)")

theorem intToBytes_ok {len n : Nat} (small : n < 256 ^ len) :
    intToBytes len n = .ok (toBytes len n) := by
  simp [intToBytes, small]

theorem bytesOf_ok {ints : List Nat} (small : ∀ n ∈ ints, n < 256) :
    bytesOf ints = .ok (ints.map UInt8.ofNat) := by
  induction ints with
  | nil => rfl
  | cons n rest ih =>
    have tail := ih fun m member => small m (List.mem_cons_of_mem _ member)
    simp [bytesOf, small n List.mem_cons_self, tail, bind, Except.bind]

theorem bytesOf_wide {ints : List Nat} (wide : ∃ n ∈ ints, 256 ≤ n) :
    ∃ e, bytesOf ints = .error e := by
  induction ints with
  | nil => simp at wide
  | cons n rest ih =>
    by_cases small : n < 256
    · obtain ⟨m, member, large⟩ := wide
      rcases List.mem_cons.mp member with rfl | later
      · omega
      · obtain ⟨e, raised⟩ := ih ⟨m, later, large⟩
        exact ⟨e, by simp only [bytesOf, small, ↓reduceIte, raised, bind, Except.bind]⟩
    · exact ⟨_, if_neg small⟩

def hexDigit (n : Nat) : Char := Nat.digitChar n

/-- Two lower-case hexadecimal digits for each byte. -/
def hex (b : Bytes) : String :=
  String.ofList (b.flatMap fun x => [hexDigit (x.toNat / 16), hexDigit (x.toNat % 16)])

end PythonError
