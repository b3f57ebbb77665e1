import Mathlib.Data.List.Nodup
import Mathlib.Data.List.Infix

/- A list without repeats and a table that finds its entries by a key. Entries
   are only appended, so a position keeps what it stands for. -/
namespace Interning
variable {α κ : Type} [DecidableEq κ] (key : α → κ)

structure Table (α κ : Type) where
  entries : List α
  index : List (κ × Nat)

def Table.empty : Table α κ := ⟨[], []⟩

/-- The position of an entry with the key of the value, added if there is none. -/
def intern (t : Table α κ) (a : α) : Table α κ × Nat :=
  match t.index.lookup (key a) with
  | some i => (t, i)
  | none => (⟨t.entries ++ [a], (key a, t.entries.length) :: t.index⟩, t.entries.length)

def internAll (t : Table α κ) : List α → Table α κ × List Nat
  | [] => (t, [])
  | a :: rest =>
    let (t, i) := intern key t a
    let (t, positions) := internAll t rest
    (t, i :: positions)

/-- Every entry is found under its key, and only entries are found. -/
structure Sound (t : Table α κ) : Prop where
  found : ∀ k i, t.index.lookup k = some i → ∃ a, t.entries[i]? = some a ∧ key a = k
  known : ∀ a ∈ t.entries, ∃ i, t.index.lookup (key a) = some i
  distinct : (t.entries.map key).Nodup

theorem sound_empty : Sound key Table.empty where
  found k i absent := by simp [Table.empty] at absent
  known a member := by simp [Table.empty] at member
  distinct := List.nodup_nil

variable {key}

theorem getElem?_earlier {xs ys : List α} (longer : xs <+: ys) {i : Nat} {a : α}
    (found : xs[i]? = some a) : ys[i]? = some a := by
  obtain ⟨inside, value⟩ := List.getElem?_eq_some_iff.mp found
  obtain ⟨rest, rfl⟩ := longer
  rw [List.getElem?_append_left inside, found]

theorem sound_nodup {t : Table α κ} (sound : Sound key t) : t.entries.Nodup :=
  List.Nodup.of_map key sound.distinct

theorem intern_extends (t : Table α κ) (a : α) : t.entries <+: (intern key t a).1.entries := by
  unfold intern
  split
  · exact List.prefix_rfl
  · exact List.prefix_append _ _

theorem intern_entries (t : Table α κ) (a : α) :
    ∀ b ∈ (intern key t a).1.entries, b ∈ t.entries ∨ b = a := by
  intro b member
  unfold intern at member
  split at member
  · exact Or.inl member
  · simpa using member

theorem intern_sound {t : Table α κ} (sound : Sound key t) (a : α) :
    Sound key (intern key t a).1 := by
  unfold intern
  split
  · exact sound
  · rename_i absent
    have fresh : key a ∉ t.entries.map key := by
      intro member
      obtain ⟨b, inside, same⟩ := List.mem_map.mp member
      obtain ⟨i, present⟩ := sound.known b inside
      rw [same, absent] at present
      simp at present
    constructor
    · intro k i present
      rw [List.lookup_cons] at present
      split at present
      · rename_i same
        simp only [Option.some.injEq] at present
        exact ⟨a, by simp [← present], (beq_iff_eq.mp same).symm⟩
      · obtain ⟨b, at_i, same⟩ := sound.found k i present
        exact ⟨b, getElem?_earlier (List.prefix_append _ _) at_i, same⟩
    · intro b member
      rw [List.lookup_cons]
      split
      · exact ⟨_, rfl⟩
      · rename_i apart
        rcases List.mem_append.mp member with older | new
        · exact sound.known b older
        · simp only [List.mem_singleton] at new
          simp [new] at apart
    · rw [List.map_append, List.nodup_append]
      constructor
      · exact sound.distinct
      · simpa using fresh

theorem intern_reads {t : Table α κ} (sound : Sound key t) (a : α) :
    ∃ b, (intern key t a).1.entries[(intern key t a).2]? = some b ∧ key b = key a := by
  unfold intern
  split
  · rename_i i present
    exact sound.found _ i present
  · exact ⟨a, by simp, rfl⟩

theorem internAll_extends (as : List α) (t : Table α κ) :
    t.entries <+: (internAll key t as).1.entries := by
  induction as generalizing t with
  | nil => exact List.prefix_rfl
  | cons a as ih => exact (intern_extends t a).trans (ih _)

theorem internAll_entries (as : List α) (t : Table α κ) :
    ∀ b ∈ (internAll key t as).1.entries, b ∈ t.entries ∨ b ∈ as := by
  induction as generalizing t with
  | nil => exact fun b member => Or.inl member
  | cons a as ih =>
    intro b member
    rcases ih _ b member with older | later
    · rcases intern_entries t a b older with first | rfl
      · exact Or.inl first
      · exact Or.inr (by simp)
    · exact Or.inr (by simp [later])

theorem internAll_sound (as : List α) {t : Table α κ} (sound : Sound key t) :
    Sound key (internAll key t as).1 := by
  induction as generalizing t with
  | nil => exact sound
  | cons a as ih => exact ih (intern_sound sound a)

theorem internAll_append (as bs : List α) (t : Table α κ) : internAll key t (as ++ bs) =
    ((internAll key (internAll key t as).1 bs).1,
      (internAll key t as).2 ++ (internAll key (internAll key t as).1 bs).2) := by
  induction as generalizing t with
  | nil => rfl
  | cons a as ih => simp only [List.cons_append, internAll, ih]

/-- Where values are their own keys, the table has each of them once, in the order
    in which they came first. -/
theorem internAll_distinct [DecidableEq α] (as : List α) :
    (internAll id Table.empty as).1.entries = as.eraseDups := by
  induction as using List.reverseRecOn with
  | nil => rfl
  | append_singleton as a ih =>
    have sound : Sound id (internAll id Table.empty as).1 := internAll_sound as (sound_empty id)
    have step : (internAll id Table.empty (as ++ [a])).1.entries =
        (intern id (internAll id Table.empty as).1 a).1.entries := by
      rw [internAll_append]
      rfl
    rw [step, List.eraseDups_append, ← ih, intern]
    split
    · rename_i i present
      obtain ⟨b, place, rfl⟩ := sound.found _ i present
      have member : id b ∈ as := by
        rw [← List.mem_eraseDups, ← ih]
        exact List.mem_of_getElem? place
      rw [List.removeAll, List.filter_cons_of_neg (by simpa using member)]
      simp
    · rename_i absent
      have fresh : a ∉ as := by
        intro member
        rw [← List.mem_eraseDups, ← ih] at member
        obtain ⟨i, present⟩ := sound.known a member
        exact absurd (absent.symm.trans present) (by simp)
      rw [List.removeAll, List.filter_cons_of_pos (by simpa using fresh)]
      rfl

/-- What positions stand for in a list of entries. -/
def readAt (entries : List α) (positions : List Nat) : Option (List α) :=
  positions.mapM fun i => entries[i]?

theorem readAt_cons (entries : List α) (i : Nat) (positions : List Nat) :
    readAt entries (i :: positions) = (do
      let a ← entries[i]?
      let rest ← readAt entries positions
      pure (a :: rest)) := by
  rw [readAt, List.mapM_cons]
  rfl

/-- Positions keep their values when entries are appended. -/
theorem readAt_extends {entries more : List α} (longer : entries <+: more) {positions : List Nat}
    {as : List α} (read : readAt entries positions = some as) : readAt more positions = some as := by
  induction positions generalizing as with
  | nil => exact read
  | cons i positions ih =>
    rw [readAt_cons] at read ⊢
    cases here : entries[i]? with
    | none => simp [here] at read
    | some a =>
      cases later : readAt entries positions with
      | none => simp [here, later] at read
      | some rest =>
        rw [getElem?_earlier longer here, ih later]
        simpa [here, later] using read

/-- Where keys tell the values apart, the positions lead back to the values. -/
theorem internAll_reads (as : List α) {t : Table α κ} (sound : Sound key t)
    (apart : ∀ a ∈ t.entries ++ as, ∀ b ∈ t.entries ++ as, key a = key b → a = b) :
    readAt (internAll key t as).1.entries (internAll key t as).2 = some as := by
  induction as generalizing t with
  | nil => rfl
  | cons a as ih =>
    have inside : ∀ b ∈ (intern key t a).1.entries ++ as, b ∈ t.entries ++ a :: as := by
      intro b member
      rcases List.mem_append.mp member with older | later
      · rcases intern_entries t a b older with first | rfl
        · simp [first]
        · simp
      · simp [later]
    have rest := ih (intern_sound sound a) fun b hb c hc => apart b (inside b hb) c (inside c hc)
    obtain ⟨b, position, same⟩ := intern_reads sound a
    have member : b ∈ (intern key t a).1.entries := List.mem_of_getElem? position
    have value : b = a := apart b (inside b (List.mem_append_left _ member)) a (by simp) same
    subst value
    have longer : (intern key t b).1.entries <+: (internAll key (intern key t b).1 as).1.entries :=
      internAll_extends as _
    have final := getElem?_earlier longer position
    simp only [internAll, readAt_cons, final, rest]
    rfl

end Interning
