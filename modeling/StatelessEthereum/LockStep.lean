import StatelessEthereum.StateEffect

/- Two parties in lock step over one state. Whenever the first one finishes, the
   second, given what the first one made, finishes in the same state. -/
namespace LockStep
open StateEffect
variable {σ ε α β γ δ : Type}

theorem effect_map_id (x : Effect σ ε α) : id <$> x = x := by
  funext s
  change (x >>= pure) s = x s
  rw [bind_run]
  cases x s with
  | mk result t => cases result <;> rfl

theorem effect_bind_assoc (x : Effect σ ε α) (f : α → Effect σ ε β) (g : β → Effect σ ε γ) :
    x >>= f >>= g = x >>= fun a => f a >>= g := by
  funext s
  simp only [bind_run]
  cases x s with
  | mk result t => cases result <;> rfl

theorem effect_lawful : LawfulMonad (Effect σ ε) :=
  LawfulMonad.mk' (Effect σ ε) effect_map_id (fun _ _ => rfl) effect_bind_assoc

def Replays (party : Effect σ ε α) (replay : α → Effect σ ε β) (Q : α → β → Prop) : Prop :=
  ∀ s a t, party s = (.ok a, t) → ∃ b, replay a s = (.ok b, t) ∧ Q a b

theorem replays_pure {a : α} {b : β} {replay : α → Effect σ ε β} {Q : α → β → Prop}
    (shape : replay a = pure b) (holds : Q a b) : Replays (pure a : Effect σ ε α) replay Q := by
  intro s c t run
  cases run
  refine ⟨b, ?_, holds⟩
  rw [shape]
  rfl

theorem replays_raise {e : ε} {replay : α → Effect σ ε β} {Q : α → β → Prop} :
    Replays (raise e) replay Q := by
  intro s a t run
  cases run

/-- The second party sees only what the first one made in the end. From that it
    has to find its own first step, which replays the other's. -/
theorem replays_bind {x : Effect σ ε α} {f : α → Effect σ ε γ} {replay : γ → Effect σ ε δ}
    {first : α → Effect σ ε β} {P : α → β → Prop} {Q : γ → δ → Prop}
    (next : γ → β → Effect σ ε δ) (here : Replays x first P)
    (later : ∀ a b, P a b →
      Replays (f a) (fun c => next c b) fun c d => replay c = (first a >>= next c) ∧ Q c d) :
    Replays (x >>= f) replay Q := by
  intro s c u run
  obtain ⟨a, t, one, two⟩ := bind_inv run
  obtain ⟨b, again, known⟩ := here s a t one
  obtain ⟨d, last, shape, holds⟩ := later a b known t c u two
  refine ⟨d, ?_, holds⟩
  rw [shape]
  exact (bind_ok again).trans last

theorem replays_bind_same {x : Effect σ ε α} {f : α → Effect σ ε γ} {replay : γ → Effect σ ε δ}
    {Q : γ → δ → Prop} (next : γ → α → Effect σ ε δ)
    (later : ∀ a, Replays (f a) (fun c => next c a) fun c d => replay c = (x >>= next c) ∧ Q c d) :
    Replays (x >>= f) replay Q := by
  have same : Replays x (fun _ => x) fun a b => a = b := fun _ a _ run => ⟨a, run, rfl⟩
  apply replays_bind next same
  intro a b equal
  subst equal
  exact later a

/-- A step of the first party that leaves the state alone. -/
theorem replays_bind_lift {x : Except ε α} {f : α → Effect σ ε γ} {replay : γ → Effect σ ε δ}
    {Q : γ → δ → Prop} (later : ∀ a, x = .ok a → Replays (f a) replay Q) :
    Replays (lift x >>= f) replay Q := by
  cases x with
  | ok a => exact later a rfl
  | error e => exact replays_raise

end LockStep
