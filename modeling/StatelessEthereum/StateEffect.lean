import Mathlib.Order.Basic
import Mathlib.Logic.Basic

/- Imperative code with exceptions over an explicit state. A run that raises
   still leaves the state it had reached, so partial writes stay visible. -/
namespace StateEffect
variable {σ ε α β : Type}

def Effect (σ ε α : Type) := σ → Except ε α × σ

def Effect.pure (a : α) : Effect σ ε α := fun s => (.ok a, s)

def Effect.bind (x : Effect σ ε α) (f : α → Effect σ ε β) : Effect σ ε β := fun s =>
  match x s with
  | (.ok a, t) => f a t
  | (.error e, t) => (.error e, t)

instance : Monad (Effect σ ε) where
  pure := Effect.pure
  bind := Effect.bind

def raise (e : ε) : Effect σ ε α := fun s => (.error e, s)

/-- Code that reads the state and may raise, but writes nothing. -/
def reads (f : σ → Except ε α) : Effect σ ε α := fun s => (f s, s)

def lift (x : Except ε α) : Effect σ ε α := fun s => (x, s)

def modify (f : σ → σ) : Effect σ ε Unit := fun s => (.ok (), f s)

/-- A loop over a list; the first exception ends it. -/
def forEach (step : α → Effect σ ε Unit) : List α → Effect σ ε Unit
  | [] => pure ()
  | a :: rest => do step a; forEach step rest

@[simp] theorem pure_run (a : α) (s : σ) : (pure a : Effect σ ε α) s = (.ok a, s) := rfl

@[simp] theorem raise_run (e : ε) (s : σ) : (raise e : Effect σ ε α) s = (.error e, s) := rfl

@[simp] theorem reads_run (f : σ → Except ε α) (s : σ) : reads f s = (f s, s) := rfl

@[simp] theorem lift_run (x : Except ε α) (s : σ) : lift x s = (x, s) := rfl

@[simp] theorem modify_run (f : σ → σ) (s : σ) :
    (modify f : Effect σ ε Unit) s = (.ok (), f s) := rfl

theorem bind_run (x : Effect σ ε α) (f : α → Effect σ ε β) (s : σ) :
    (x >>= f) s = match x s with
      | (.ok a, t) => f a t
      | (.error e, t) => (.error e, t) := rfl

theorem bind_ok {x : Effect σ ε α} {f : α → Effect σ ε β} {s t : σ} {a : α}
    (first : x s = (.ok a, t)) : (x >>= f) s = f a t := by
  rw [bind_run, first]

theorem bind_error {x : Effect σ ε α} {f : α → Effect σ ε β} {s t : σ} {e : ε}
    (first : x s = (.error e, t)) : (x >>= f) s = (.error e, t) := by
  rw [bind_run, first]

theorem bind_inv {x : Effect σ ε α} {f : α → Effect σ ε β} {s u : σ} {b : β}
    (run : (x >>= f) s = (.ok b, u)) : ∃ a t, x s = (.ok a, t) ∧ f a t = (.ok b, u) := by
  rw [bind_run] at run
  cases first : x s with
  | mk result t =>
    rw [first] at run
    cases result with
    | ok a => exact ⟨a, t, rfl, run⟩
    | error e => simp at run

theorem state_after {run : α × σ} {a : α} (made : run.1 = a) : ∃ t, run = (a, t) :=
  ⟨run.2, Prod.ext made rfl⟩

theorem forEach_cons {step : α → Effect σ ε Unit} {x : α} {s t : σ} (first : step x s = (.ok (), t))
    (xs : List α) : forEach step (x :: xs) s = forEach step xs t := bind_ok first

theorem forEach_single (step : α → Effect σ ε Unit) (x : α) (s : σ) :
    forEach step [x] s = step x s := by
  rw [forEach, bind_run]
  cases step x s with
  | mk result t => cases result <;> rfl

theorem forEach_append (step : α → Effect σ ε Unit) (xs ys : List α) (s : σ) :
    forEach step (xs ++ ys) s = (forEach step xs >>= fun _ => forEach step ys) s := by
  induction xs generalizing s with
  | nil => rfl
  | cons x xs ih =>
    simp only [List.cons_append, forEach, bind_run]
    cases step x s with
    | mk result t =>
      cases result with
      | error e => rfl
      | ok u => simp only [ih, bind_run]

/- What a run can do to the state, whether or not it raises: the state moves
   along a reflexive and transitive relation. -/
section Along
variable {R : σ → σ → Prop}

def Along (R : σ → σ → Prop) (x : Effect σ ε α) : Prop := ∀ s, R s (x s).2

theorem along_pure (refl : ∀ s, R s s) (a : α) : Along R (pure a : Effect σ ε α) :=
  fun s => refl s

theorem along_raise (refl : ∀ s, R s s) (e : ε) : Along R (raise e : Effect σ ε α) :=
  fun s => refl s

theorem along_reads (refl : ∀ s, R s s) (f : σ → Except ε α) : Along R (reads f) :=
  fun s => refl s

theorem along_lift (refl : ∀ s, R s s) (x : Except ε α) : Along R (lift x) := fun s => refl s

theorem along_bind (trans : ∀ s t u, R s t → R t u → R s u) {x : Effect σ ε α}
    {f : α → Effect σ ε β} (first : Along R x) (next : ∀ a, Along R (f a)) :
    Along R (x >>= f) := by
  intro s
  have step := first s
  rw [bind_run]
  cases run : x s with
  | mk result t =>
    rw [run] at step
    cases result with
    | ok a => exact trans s t _ step (next a t)
    | error e => exact step

theorem along_forEach (refl : ∀ s, R s s) (trans : ∀ s t u, R s t → R t u → R s u)
    {step : α → Effect σ ε Unit} (each : ∀ a, Along R (step a)) (xs : List α) :
    Along R (forEach step xs) := by
  induction xs with
  | nil => exact along_pure refl ()
  | cons x xs ih => exact along_bind trans (each x) fun _ => ih

end Along

/- Exceptions of a kind that a run does not end with. -/
section Avoids
variable {Kind : ε → Prop}

def Avoids (Kind : ε → Prop) (x : Effect σ ε α) (s : σ) : Prop :=
  ∀ e, (x s).1 = .error e → ¬ Kind e

def Spares (Kind : ε → Prop) (x : Except ε α) : Prop := ∀ e, x = .error e → ¬ Kind e

theorem spares_ok (a : α) : Spares Kind (.ok a : Except ε α) := by
  intro e failed
  cases failed

theorem spares_error {e : ε} (other : ¬ Kind e) : Spares Kind (.error e : Except ε α) := by
  intro e' failed
  cases failed
  exact other

theorem spares_bind {x : Except ε α} {f : α → Except ε β} (first : Spares Kind x)
    (next : ∀ a, Spares Kind (f a)) : Spares Kind (x >>= f) := by
  cases x with
  | ok a => exact next a
  | error e => exact spares_error (first e rfl)

theorem spares_mapM {f : α → Except ε β} (each : ∀ a, Spares Kind (f a)) (l : List α) :
    Spares Kind (l.mapM f) := by
  induction l with
  | nil => exact spares_ok []
  | cons a l ih =>
    rw [List.mapM_cons]
    exact spares_bind (each a) fun b => spares_bind ih fun bs => spares_ok (b :: bs)

theorem avoids_pure (a : α) (s : σ) : Avoids Kind (pure a : Effect σ ε α) s := spares_ok a

theorem avoids_raise {e : ε} (other : ¬ Kind e) (s : σ) :
    Avoids Kind (raise e : Effect σ ε α) s := spares_error other

theorem avoids_lift {x : Except ε α} (spares : Spares Kind x) (s : σ) :
    Avoids Kind (lift x : Effect σ ε α) s := spares

theorem avoids_modify (f : σ → σ) (s : σ) : Avoids Kind (modify f : Effect σ ε Unit) s :=
  spares_ok ()

theorem avoids_bind {x : Effect σ ε α} {f : α → Effect σ ε β} {s : σ} (first : Avoids Kind x s)
    (next : ∀ a t, x s = (.ok a, t) → Avoids Kind (f a) t) : Avoids Kind (x >>= f) s := by
  intro e failed
  rw [bind_run] at failed
  cases run : x s with
  | mk result t =>
    rw [run] at failed
    cases result with
    | ok a => exact next a t run e failed
    | error e' =>
      cases failed
      exact first e (by rw [run])

theorem avoids_bind_lift {x : Except ε α} {f : α → Effect σ ε β} {s : σ}
    (first : Spares Kind x) (next : ∀ a, x = .ok a → Avoids Kind (f a) s) :
    Avoids Kind (lift x >>= f) s := by
  cases x with
  | ok a => exact next a rfl
  | error e => exact avoids_raise (first e rfl) s

theorem avoids_bind_reads {g : σ → Except ε α} {a : α} {f : α → Effect σ ε β} {s : σ}
    (value : g s = .ok a) (next : Avoids Kind (f a) s) : Avoids Kind (reads g >>= f) s := by
  have run : (reads g >>= f) s = f a s := bind_ok (by rw [reads_run, value])
  unfold Avoids
  rwa [run]

end Avoids

/- What every run keeps of the state, and what is then known of its result and
   of the state it leaves. A run that raises keeps it too. -/
section Keeps
variable {R : σ → σ → Prop} {Inv : σ → Prop}

def Keeps (Inv : σ → Prop) (x : Effect σ ε α) (Q : α → Prop) : Prop :=
  ∀ s, Inv s → Inv (x s).2 ∧ ∀ a, (x s).1 = .ok a → Q a

/-- The same from one state on, with a result that may speak of the state left. -/
def Maintains (Inv : σ → Prop) (x : Effect σ ε α) (s : σ) (Q : α → σ → Prop) : Prop :=
  Inv s → Inv (x s).2 ∧ ∀ a, (x s).1 = .ok a → Q a (x s).2

theorem maintains_pure {a : α} {s : σ} {Q : α → σ → Prop} (holds : Q a s) :
    Maintains Inv (pure a : Effect σ ε α) s Q := by
  intro kept
  constructor
  · exact kept
  · intro b same
    cases same
    exact holds

theorem maintains_raise (e : ε) (s : σ) (Q : α → σ → Prop) :
    Maintains Inv (raise e : Effect σ ε α) s Q := by
  intro kept
  constructor
  · exact kept
  · intro b same
    cases same

theorem maintains_lift {x : Except ε α} {s : σ} {Q : α → σ → Prop}
    (holds : ∀ a, x = .ok a → Q a s) : Maintains Inv (lift x : Effect σ ε α) s Q :=
  fun kept => ⟨kept, holds⟩

theorem maintains_bind {x : Effect σ ε α} {f : α → Effect σ ε β} {s : σ} {P : α → σ → Prop}
    {Q : β → σ → Prop} (moves : Along R x) (first : Maintains Inv x s P)
    (next : ∀ a t, R s t → P a t → Maintains Inv (f a) t Q) : Maintains Inv (x >>= f) s Q := by
  intro kept
  obtain ⟨between, known⟩ := first kept
  have moved := moves s
  rw [bind_run]
  cases run : x s with
  | mk result t =>
    rw [run] at between known moved
    cases result with
    | ok a => exact next a t moved (known a rfl) between
    | error e =>
      constructor
      · exact between
      · intro b same
        cases same

/- Steps that leave the state alone. -/

theorem maintains_bind_lift {x : Except ε α} {f : α → Effect σ ε β} {s : σ} {Q : β → σ → Prop}
    (next : ∀ a, x = .ok a → Maintains Inv (f a) s Q) : Maintains Inv (lift x >>= f) s Q := by
  cases x with
  | ok a => exact next a rfl
  | error e => exact maintains_raise e s Q

theorem maintains_bind_reads {g : σ → Except ε α} {f : α → Effect σ ε β} {s : σ}
    {Q : β → σ → Prop} (next : ∀ a, Inv s → g s = .ok a → Maintains Inv (f a) s Q) :
    Maintains Inv (reads g >>= f) s Q := by
  intro kept
  cases run : g s with
  | ok a =>
    have same : (reads g >>= f) s = f a s := bind_ok (by rw [reads_run, run])
    rw [same]
    exact next a kept run kept
  | error e =>
    have same : (reads g >>= f) s = (.error e, s) := bind_error (by rw [reads_run, run])
    rw [same]
    exact maintains_raise e s Q kept

end Keeps

/- Results that rest on a condition on the state a run ends in. When the
   condition passes back along every move, it holds at each step before. -/
section Ensures
variable {R : σ → σ → Prop} {Allowed : σ → Prop}

def Ensures (Allowed : σ → Prop) (x : Effect σ ε α) (s : σ) (Q : α → σ → Prop) : Prop :=
  Allowed (x s).2 → ∃ a, (x s).1 = .ok a ∧ Q a (x s).2

theorem ensures_pure {a : α} {s : σ} {Q : α → σ → Prop} (holds : Q a s) :
    Ensures Allowed (pure a : Effect σ ε α) s Q := fun _ => ⟨a, rfl, holds⟩

theorem ensures_lift {x : Except ε α} {a : α} {s : σ} {Q : α → σ → Prop} (value : x = .ok a)
    (holds : Q a s) : Ensures Allowed (lift x) s Q := fun _ => ⟨a, value, holds⟩

theorem ensures_modify {f : σ → σ} {s : σ} {Q : Unit → σ → Prop} (holds : Q () (f s)) :
    Ensures Allowed (modify f : Effect σ ε Unit) s Q := fun _ => ⟨(), rfl, holds⟩

theorem ensures_mono {x : Effect σ ε α} {s : σ} {P Q : α → σ → Prop}
    (first : Ensures Allowed x s P) (weaker : ∀ a t, P a t → Q a t) : Ensures Allowed x s Q := by
  intro allowed
  obtain ⟨a, run, holds⟩ := first allowed
  exact ⟨a, run, weaker _ _ holds⟩

theorem ensures_bind (back : ∀ s t, R s t → Allowed t → Allowed s) {x : Effect σ ε α}
    {f : α → Effect σ ε β} {s : σ} {P : α → σ → Prop} {Q : β → σ → Prop}
    (here : Along R x) (later : ∀ a, Along R (f a)) (first : Ensures Allowed x s P)
    (next : ∀ a t, R s t → P a t → Ensures Allowed (f a) t Q) :
    Ensures Allowed (x >>= f) s Q := by
  intro allowed
  have moved := here s
  rw [bind_run] at allowed ⊢
  unfold Ensures at first
  cases run : x s with
  | mk result t =>
    rw [run] at allowed first moved
    have between : Allowed t := by
      cases result with
      | ok a => exact back t _ (later a t) allowed
      | error e => exact allowed
    obtain ⟨a, fine, holds⟩ := first between
    simp only at fine holds
    subst fine
    exact next a t moved holds allowed

/-- The condition may be used on the state a run starts in. -/
theorem ensures_from (back : ∀ s t, R s t → Allowed t → Allowed s) {x : Effect σ ε α}
    (moves : Along R x) {s : σ} {Q : α → σ → Prop}
    (holds : Allowed s → Ensures Allowed x s Q) : Ensures Allowed x s Q := fun allowed =>
  holds (back s _ (moves s) allowed) allowed

/- Steps whose result is known. -/

theorem ensures_bind_lift {x : Except ε α} {a : α} {f : α → Effect σ ε β} {s : σ}
    {Q : β → σ → Prop} (value : x = .ok a) (next : Ensures Allowed (f a) s Q) :
    Ensures Allowed (lift x >>= f) s Q := by
  subst value
  exact next

theorem ensures_bind_reads {g : σ → Except ε α} {a : α} {f : α → Effect σ ε β} {s : σ}
    {Q : β → σ → Prop} (value : g s = .ok a) (next : Ensures Allowed (f a) s Q) :
    Ensures Allowed (reads g >>= f) s Q := by
  have run : (reads g >>= f) s = f a s := bind_ok (by rw [reads_run, value])
  unfold Ensures
  rw [run]
  exact next

theorem ensures_bind_modify {g : σ → σ} {f : Unit → Effect σ ε β} {s : σ} {Q : β → σ → Prop}
    (next : Ensures Allowed (f ()) (g s) Q) : Ensures Allowed (modify g >>= f) s Q := next

/-- A loop over a list whose every step returns normally and keeps an
    invariant that depends on the steps already taken. -/
theorem ensures_forEach (back : ∀ s t, R s t → Allowed t → Allowed s) (refl : ∀ s, R s s)
    (trans : ∀ s t u, R s t → R t u → R s u) {step : α → Effect σ ε Unit}
    (moves : ∀ a, Along R (step a)) (Keeps : List α → σ → Prop) (xs : List α)
    (one : ∀ done a s, a ∈ xs → Keeps done s →
      Ensures Allowed (step a) s fun _ t => Keeps (done ++ [a]) t) :
    ∀ (done : List α) (s : σ), Keeps done s →
      Ensures Allowed (forEach step xs) s fun _ t => Keeps (done ++ xs) t := by
  induction xs with
  | nil =>
    intro done s keeps
    exact ensures_pure (by simpa using keeps)
  | cons x xs ih =>
    intro done s keeps
    refine ensures_bind back (moves x) (fun _ => along_forEach refl trans moves xs)
      (one done x s (by simp) keeps) ?_
    intro _ t _ keeps'
    have rest := ih (fun done a s member => one done a s (by simp [member])) _ t keeps'
    simpa using rest

end Ensures

/- How a run ends: with a result and a state of which something is known, or with
   one of the exceptions that are allowed. -/
section Settles
variable {Stuck : ε → Prop}

def Settles (Stuck : ε → Prop) (x : Effect σ ε α) (s : σ) (Q : α → σ → Prop) : Prop :=
  (∀ a t, x s = (.ok a, t) → Q a t) ∧ ∀ e t, x s = (.error e, t) → Stuck e

theorem settles_ok {x : Effect σ ε α} {s t : σ} {a : α} {Q : α → σ → Prop}
    (run : x s = (.ok a, t)) (holds : Q a t) : Settles Stuck x s Q := by
  unfold Settles
  rw [run]
  constructor
  · intro b u same
    cases same
    exact holds
  · intro e u same
    cases same

theorem settles_pure {a : α} {s : σ} {Q : α → σ → Prop} (holds : Q a s) :
    Settles Stuck (pure a : Effect σ ε α) s Q := settles_ok rfl holds

theorem settles_raise {e : ε} {s : σ} (stuck : Stuck e) (Q : α → σ → Prop) :
    Settles Stuck (raise e) s Q := by
  constructor
  · intro b u same
    cases same
  · intro e' u same
    cases same
    exact stuck

theorem settles_mono {x : Effect σ ε α} {s : σ} {P Q : α → σ → Prop} (first : Settles Stuck x s P)
    (weaker : ∀ a t, P a t → Q a t) : Settles Stuck x s Q := by
  constructor
  · intro a t run
    exact weaker a t (first.1 a t run)
  · exact first.2

theorem settles_bind {x : Effect σ ε α} {f : α → Effect σ ε β} {s : σ} {P : α → σ → Prop}
    {Q : β → σ → Prop} (first : Settles Stuck x s P)
    (next : ∀ a t, P a t → Settles Stuck (f a) t Q) : Settles Stuck (x >>= f) s Q := by
  cases run : x s with
  | mk result t =>
    cases result with
    | ok a =>
      unfold Settles
      rw [bind_ok run]
      exact next a t (first.1 a t run)
    | error e =>
      have stuck := first.2 e t run
      unfold Settles
      rw [bind_error run]
      exact settles_raise stuck Q

theorem settles_bind_lift {x : Except ε α} {a : α} {f : α → Effect σ ε β} {s : σ}
    {Q : β → σ → Prop} (value : x = .ok a) (next : Settles Stuck (f a) s Q) :
    Settles Stuck (lift x >>= f) s Q := by
  subst value
  exact next

theorem settles_cases {x : Effect σ ε α} {s : σ} {Q : α → σ → Prop} (settles : Settles Stuck x s Q) :
    (∃ a t, x s = (.ok a, t) ∧ Q a t) ∨ ∃ e t, x s = (.error e, t) ∧ Stuck e := by
  cases run : x s with
  | mk result t =>
    cases result with
    | ok a => exact Or.inl ⟨a, t, rfl, settles.1 a t run⟩
    | error e => exact Or.inr ⟨e, t, rfl, settles.2 e t run⟩

end Settles

end StateEffect
