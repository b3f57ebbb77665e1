import StatelessEthereum.CrashRecovery
import Mathlib.Logic.Relation

/- A tree that keeps itself on a disk, over many processes. A process can stop in the
   middle of an insert; the next one opens the tree from what is then on the disk. -/
namespace DiskSessions
open BigEndian PutLog DiskLog CrashRecovery
variable {Tree Entry : Type}

/-- What an insert makes of a tree, and what the constructor makes of a disk. -/
structure Keeper (Tree Entry : Type) where
  empty : Tree
  disk : Tree → Disk
  insert : Entry → Tree → Tree
  opens : Disk → Tree → Prop
  opened_disk : ∀ d t, opens d t → disk t = d
  insert_grows : ∀ e t, (disk t).db.Extends (disk (insert e t)).db

/-- What is left of the inserts when the last one stops at a disk: nothing while the
    file of the root is empty, all of them at the end, and else all but the last. -/
def keptRun (run : List Entry) (e : Entry) (after d : Disk) : List Entry :=
  if Truncated d then [] else if d = after then run ++ [e] else run

/-- A process inserts, a new one takes over, or one stops during an insert and a new
    one takes over. Beside the tree stand the inserts whose effects it has. -/
inductive Step (k : Keeper Tree Entry) : List Entry × Tree → List Entry × Tree → Prop where
  | insert (run : List Entry) (t : Tree) (e : Entry) : Step k (run, t) (run ++ [e], k.insert e t)
  | reopen (run : List Entry) {t u : Tree} (opened : k.opens (k.disk t) u) :
      Step k (run, t) (run, u)
  | stop (run : List Entry) {t u : Tree} (e : Entry) {d : Disk}
      (stops : StopsAt (k.disk t) (k.disk (k.insert e t)) d) (opened : k.opens d u) :
      Step k (run, t) (keptRun run e (k.disk (k.insert e t)) d, u)

abbrev Later (k : Keeper Tree Entry) : List Entry × Tree → List Entry × Tree → Prop :=
  Relation.ReflTransGen (Step k)

/-- What the steps from a tree on an empty directory lead to. -/
def Session (k : Keeper Tree Entry) (s : List Entry × Tree) : Prop := Later k ([], k.empty) s

variable {k : Keeper Tree Entry}

theorem step_grows {s u : List Entry × Tree} (step : Step k s u) :
    (k.disk s.2).db.Extends (k.disk u.2).db := by
  cases step with
  | insert run t e => exact k.insert_grows e t
  | reopen run opened =>
    rw [k.opened_disk _ _ opened]
    exact extends_refl _
  | stop run e stops opened =>
    rw [k.opened_disk _ _ opened]
    exact suffix_db stops.1

theorem later_grows {s u : List Entry × Tree} (later : Later k s u) :
    (k.disk s.2).db.Extends (k.disk u.2).db := by
  induction later with
  | refl => exact extends_refl _
  | tail _ step ih => exact extends_trans ih (step_grows step)

/- Where a stop falls. -/

/-- Among the nodes, right after the truncation, or at the end. -/
theorem stop_places {before e after d : Disk} {r : Bytes} (added : Adds before e)
    (grown : after = (e.apply .truncateRoot).apply (.writeRoot r)) (stop : StopsAt before after d) :
    Adds before d ∨ d = e.apply .truncateRoot ∨ d = after := by
  obtain ⟨since, until'⟩ := stop
  rw [grown] at until'
  rcases List.suffix_cons_iff.mp until' with last | earlier
  · exact Or.inr (Or.inr ((congrArg Disk.mk last).trans grown.symm))
  · rcases List.suffix_cons_iff.mp earlier with last | nodes
    · exact Or.inr (Or.inl (congrArg Disk.mk last))
    · exact Or.inl (adds_between added since nodes)

theorem adds_unfinished {before e after d : Disk} {r : Bytes} (added : Adds before e)
    (grown : after = (e.apply .truncateRoot).apply (.writeRoot r)) (nodes : Adds before d) :
    d ≠ after := by
  rintro rfl
  obtain ⟨some, quiet, more⟩ := nodes
  obtain ⟨others, _, more'⟩ := added
  rw [grown] at more
  cases some with
  | nil =>
    have sizes := congrArg List.length more
    simp only [Disk.apply, more', List.nil_append, List.length_cons, List.length_append] at sizes
    omega
  | cons x rest =>
    have head : DiskEffect.writeRoot r = x := (List.cons.inj more).1
    have silent := quiet x List.mem_cons_self
    rw [← head] at silent
    cases silent

theorem truncated_file {d : Disk} (truncated : Truncated d) : d.rootFile = some [] := by
  obtain ⟨effects⟩ := d
  cases effects with
  | nil => cases truncated
  | cons e effects =>
    cases truncated
    rfl

/- What holds over whole sessions. -/

/-- A property that steps keep on sound disks. An insert adds nodes and then replaces the
    reference of the root, or it raises, and then its nodes make the disk unsound; more
    nodes alone change nothing for the next process. -/
structure Keeps (k : Keeper Tree Entry) (sound : Disk → Prop) (holds : List Entry → Tree → Prop) :
    Prop where
  earlier : ∀ d e, d.db.Extends e.db → sound e → sound d
  empty : holds [] k.empty
  writes : ∀ run t e, holds run t → sound (k.disk t) →
    (∃ d r, Adds (k.disk t) d ∧
      k.disk (k.insert e t) = (d.apply .truncateRoot).apply (.writeRoot r)) ∨
    Adds (k.disk t) (k.disk (k.insert e t)) ∧ ¬ sound (k.disk (k.insert e t))
  insert : ∀ run t e, holds run t → sound (k.disk (k.insert e t)) →
    holds (run ++ [e]) (k.insert e t)
  reopen : ∀ run t u d, holds run t → Adds (k.disk t) d → sound d → k.opens d u → holds run u
  emptied : ∀ d u, d.rootFile = some [] → k.opens d u → holds [] u
  truncated : ∀ run t, holds run t → Truncated (k.disk t) → run = []

variable {sound : Disk → Prop} {holds : List Entry → Tree → Prop}

/-- A stop among the nodes loses the insert. -/
theorem keeps_lost (keeps : Keeps k sound holds) {run : List Entry} {t u : Tree}
    (held : holds run t) (e : Entry) {d after : Disk} (whole : sound d)
    (nodes : Adds (k.disk t) d) (short : d ≠ after) (opened : k.opens d u) :
    holds (keptRun run e after d) u := by
  have rest := keeps.reopen run t u d held nodes whole opened
  by_cases truncated : Truncated d
  · have still : Truncated (k.disk t) := by
      by_contra open'
      exact adds_whole open' nodes truncated
    rw [keptRun, if_pos truncated]
    rwa [keeps.truncated run t held still] at rest
  · rwa [keptRun, if_neg truncated, if_neg short]

theorem keeps_stop (keeps : Keeps k sound holds) {run : List Entry} {t u : Tree}
    (held : holds run t) (e : Entry) {d : Disk} (whole : sound d)
    (stops : StopsAt (k.disk t) (k.disk (k.insert e t)) d) (opened : k.opens d u) :
    holds (keptRun run e (k.disk (k.insert e t)) d) u := by
  have before : sound (k.disk t) := keeps.earlier _ _ (suffix_db stops.1) whole
  rcases keeps.writes run t e held before with ⟨between, r, added, grown⟩ | ⟨added, unsound⟩
  · rcases stop_places added grown stops with nodes | rfl | rfl
    · exact keeps_lost keeps held e whole nodes (adds_unfinished added grown nodes) opened
    · have truncated : Truncated (between.apply .truncateRoot) := rfl
      rw [keptRun, if_pos truncated]
      exact keeps.emptied _ u rfl opened
    · have closed : ¬ Truncated (k.disk (k.insert e t)) := by
        rw [grown]
        intro truncated
        cases truncated
      rw [keptRun, if_neg closed, if_pos rfl]
      exact keeps.reopen _ _ u _ (keeps.insert run t e held whole) (adds_refl _) whole opened
  · have short : d ≠ k.disk (k.insert e t) := by
      rintro rfl
      exact unsound whole
    exact keeps_lost keeps held e whole (adds_between added stops.1 stops.2) short opened

theorem keeps_step (keeps : Keeps k sound holds) {s u : List Entry × Tree} (step : Step k s u)
    (whole : sound (k.disk u.2)) (held : holds s.1 s.2) : holds u.1 u.2 := by
  cases step with
  | insert run t e => exact keeps.insert run t e held whole
  | reopen run opened =>
    rw [k.opened_disk _ _ opened] at whole
    exact keeps.reopen run _ _ _ held (adds_refl _) whole opened
  | stop run e stops opened =>
    rw [k.opened_disk _ _ opened] at whole
    exact keeps_stop keeps held e whole stops opened

theorem keeps_session (keeps : Keeps k sound holds) {s : List Entry × Tree} (session : Session k s)
    (whole : sound (k.disk s.2)) : holds s.1 s.2 := by
  induction session with
  | refl => exact keeps.empty
  | tail _ step ih =>
    exact keeps_step keeps step whole (ih (keeps.earlier _ _ (step_grows step) whole))

end DiskSessions
