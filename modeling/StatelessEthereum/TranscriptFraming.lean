import StatelessEthereum.FiatShamir
import Mathlib.Data.List.Forall2

/- What the state of a transcript says of the calls of `append` that led to it
   (zkSTARK/transcript.py). A call is hashed as its label, the size of its data
   and the data, without the size of the label. -/
namespace TranscriptFraming
open BigEndian PythonError FiatShamir StateEffect

structure Call where
  label : Bytes
  data : Bytes
  deriving DecidableEq

def frame (call : Call) : Bytes :=
  call.label ++ (toBytes 4 call.data.length).reverse ++ call.data

section Hash
variable (secureHash : Digest)

def appendAll (calls : List Call) : Talk Unit :=
  forEach (fun call => append secureHash call.label call.data) calls

def callString (domainSeparator state : Bytes) (call : Call) : Bytes :=
  state ++ (domainSeparator ++ frame call)

def stateAfter (domainSeparator state : Bytes) (calls : List Call) : Bytes :=
  calls.foldl (fun state call => secureHash.hash (callString domainSeparator state call)) state

def callStrings (domainSeparator : Bytes) : Bytes → List Call → List Bytes
  | _, [] => []
  | state, call :: calls => callString domainSeparator state call ::
      callStrings domainSeparator (secureHash.hash (callString domainSeparator state call)) calls

/-- The longer history ends as the shorter one, after calls that lead back to the
    start; there are none of these when both are equally long. -/
def EndsAs (domainSeparator state : Bytes) (longer shorter : List Call) : Prop :=
  ∃ lead rest, longer = lead ++ rest ∧ stateAfter secureHash domainSeparator state lead = state ∧
    List.Forall₂ (fun a b => frame a = frame b) rest shorter

/-- Two histories with the same strings hashed at the end of both. -/
def Confusable (t : FiatShamirTranscript) (first second : List Call) : Prop :=
  EndsAs secureHash t.domainSeparator t.state first second ∨
    EndsAs secureHash t.domainSeparator t.state second first

end Hash

section Histories
variable (secureHash : Digest)

theorem append_run {call : Call} (short : call.data.length < 2 ^ 32) (t : FiatShamirTranscript) :
    append secureHash call.label call.data t = (.ok (), { t with
      state := secureHash.hash (callString t.domainSeparator t.state call) }) := by
  have size : packI call.data.length = .ok (toBytes 4 call.data.length).reverse := if_pos short
  rw [append, size]
  simp only [bind_run, lift_run, modify_run, absorb, callString, frame, List.append_assoc]

theorem appendAll_run {calls : List Call} (short : ∀ call ∈ calls, call.data.length < 2 ^ 32)
    (t : FiatShamirTranscript) : appendAll secureHash calls t =
      (.ok (), { t with state := stateAfter secureHash t.domainSeparator t.state calls }) := by
  induction calls generalizing t with
  | nil => rfl
  | cons call calls ih =>
    have here := append_run secureHash (short call List.mem_cons_self) t
    have later := ih fun other member => short other (List.mem_cons_of_mem _ member)
    exact (bind_ok here).trans (later _)

variable {secureHash} {domainSeparator state : Bytes}

theorem stateAfter_append (first second : List Call) :
    stateAfter secureHash domainSeparator state (first ++ second) =
      stateAfter secureHash domainSeparator (stateAfter secureHash domainSeparator state first)
        second := List.foldl_append

theorem callStrings_concat (calls : List Call) (call : Call) :
    callStrings secureHash domainSeparator state (calls ++ [call]) =
      callStrings secureHash domainSeparator state calls ++
        [callString domainSeparator (stateAfter secureHash domainSeparator state calls) call] := by
  induction calls generalizing state with
  | nil => rfl
  | cons first calls ih =>
    rw [List.cons_append, callStrings, ih]
    rfl

/-- A state is a digest once a call is made. -/
theorem stateAfter_length (sized : state.length = 32) (calls : List Call) :
    (stateAfter secureHash domainSeparator state calls).length = 32 := by
  cases calls using List.reverseRecOn with
  | nil => exact sized
  | append_singleton calls call =>
    rw [stateAfter_append]
    exact secureHash.size _

theorem framed_alike {first second : List Call}
    (alike : List.Forall₂ (fun a b => frame a = frame b) first second) :
    stateAfter secureHash domainSeparator state first =
      stateAfter secureHash domainSeparator state second := by
  induction alike generalizing state with
  | nil => rfl
  | cons same _ ih =>
    rw [stateAfter, stateAfter, List.foldl_cons, List.foldl_cons, callString, callString, same]
    exact ih

theorem endsAs_state {longer shorter : List Call}
    (ends : EndsAs secureHash domainSeparator state longer shorter) :
    stateAfter secureHash domainSeparator state longer =
      stateAfter secureHash domainSeparator state shorter := by
  obtain ⟨lead, rest, rfl, back, alike⟩ := ends
  rw [stateAfter_append, back, framed_alike alike]

theorem endsAs_concat {longer shorter : List Call} {a b : Call} (same : frame a = frame b)
    (ends : EndsAs secureHash domainSeparator state longer shorter) :
    EndsAs secureHash domainSeparator state (longer ++ [a]) (shorter ++ [b]) := by
  obtain ⟨lead, rest, rfl, back, alike⟩ := ends
  refine ⟨lead, rest ++ [a], List.append_assoc lead rest [a], back, ?_⟩
  exact List.rel_append alike (.cons same .nil)

/-- From the last call back: equal digests come from equal states and frames. -/
theorem same_state_endsAs {first second : List Call} (sized : state.length = 32)
    (collisionless : Collisionless secureHash (callStrings secureHash domainSeparator state first ++
      callStrings secureHash domainSeparator state second))
    (same : stateAfter secureHash domainSeparator state first =
      stateAfter secureHash domainSeparator state second) :
    EndsAs secureHash domainSeparator state first second ∨
      EndsAs secureHash domainSeparator state second first := by
  induction first using List.reverseRecOn generalizing second with
  | nil => exact Or.inr ⟨second, [], (List.append_nil second).symm, same.symm, .nil⟩
  | append_singleton first a ih =>
    cases second using List.reverseRecOn with
    | nil => exact Or.inl ⟨first ++ [a], [], (List.append_nil _).symm, same, .nil⟩
    | append_singleton second b =>
      rw [callStrings_concat, callStrings_concat] at collisionless
      rw [stateAfter_append, stateAfter_append] at same
      have strings := collisionless (by simp) (by simp) same
      obtain ⟨states, framed⟩ := List.append_inj strings
        (by rw [stateAfter_length sized, stateAfter_length sized])
      have frames := List.append_cancel_left framed
      have earlier : Collisionless secureHash (callStrings secureHash domainSeparator state first ++
          callStrings secureHash domainSeparator state second) := by
        apply collisionless_sublist collisionless
        intro x member
        simp only [List.mem_append] at member ⊢
        tauto
      rcases ih earlier states with ends | ends
      · exact Or.inl (endsAs_concat frames ends)
      · exact Or.inr (endsAs_concat frames.symm ends)

/-- Labels of one length keep two calls apart. -/
theorem frame_injective {a b : Call} (labels : a.label.length = b.label.length)
    (same : frame a = frame b) : a = b := by
  unfold frame at same
  rw [List.append_assoc, List.append_assoc] at same
  obtain ⟨label, rest⟩ := List.append_inj same labels
  obtain ⟨_, data⟩ := List.append_inj rest (by simp)
  rcases a with ⟨aLabel, aData⟩
  rcases b with ⟨bLabel, bData⟩
  exact congrArg₂ Call.mk label data

theorem calls_equal {first second : List Call}
    (labels : List.Forall₂ (fun a b => a.label.length = b.label.length) first second)
    (alike : List.Forall₂ (fun a b => frame a = frame b) first second) : first = second := by
  induction labels with
  | nil => rfl
  | cons label _ ih =>
    cases alike with
    | cons same alike => rw [frame_injective label same, ih alike]

theorem endsAs_level {longer shorter : List Call} (level : longer.length = shorter.length)
    (ends : EndsAs secureHash domainSeparator state longer shorter) :
    List.Forall₂ (fun a b => frame a = frame b) longer shorter := by
  obtain ⟨lead, rest, rfl, _, alike⟩ := ends
  rw [List.length_append, alike.length_eq] at level
  have none : lead = [] := List.eq_nil_of_length_eq_zero (by omega)
  rw [none]
  exact alike

/-- A protocol whose labels have fixed lengths is safe: its state tells its
    history. -/
theorem labelled_histories_apart {first second : List Call} (sized : state.length = 32)
    (labels : List.Forall₂ (fun a b => a.label.length = b.label.length) first second)
    (collisionless : Collisionless secureHash (callStrings secureHash domainSeparator state first ++
      callStrings secureHash domainSeparator state second))
    (same : stateAfter secureHash domainSeparator state first =
      stateAfter secureHash domainSeparator state second) : first = second := by
  rcases same_state_endsAs sized collisionless same with ends | ends
  · exact calls_equal labels (endsAs_level labels.length_eq ends)
  · exact (calls_equal (labels.flip.imp fun _ _ => Eq.symm)
      (endsAs_level labels.length_eq.symm ends)).symm

/-- Equal states come from equal histories, unless the two are framed alike. -/
theorem histories_apart_iff {s t : FiatShamirTranscript}
    (separators : s.domainSeparator = t.domainSeparator) (states : s.state = t.state)
    (sized : t.state.length = 32) {first second : List Call}
    (short : ∀ call ∈ first ++ second, call.data.length < 2 ^ 32)
    (collisionless : Collisionless secureHash
      (callStrings secureHash t.domainSeparator t.state first ++
        callStrings secureHash t.domainSeparator t.state second)) :
    ∃ u v, appendAll secureHash first s = (.ok (), u) ∧ appendAll secureHash second t = (.ok (), v) ∧
      ((u.state = v.state → first = second) ↔
        ¬ (first ≠ second ∧ Confusable secureHash t first second)) := by
  have one := appendAll_run secureHash (fun call member => short call (List.mem_append_left _ member)) s
  have two := appendAll_run secureHash (fun call member => short call (List.mem_append_right _ member)) t
  refine ⟨_, _, one, two, ?_⟩
  rw [separators, states]
  constructor
  · intro apart both
    obtain ⟨differ, ends⟩ := both
    apply differ
    apply apart
    rcases ends with ends | ends
    · exact endsAs_state ends
    · exact (endsAs_state ends).symm
  · intro clear same
    by_contra differ
    exact clear ⟨differ, same_state_endsAs sized collisionless same⟩

end Histories

/-- A byte of a label and four bytes of data, and the same bytes with the size
    taken into the label. -/
def plainCall : Call := ⟨ascii "a", [0, 0, 0, 0]⟩

def shiftedCall : Call := ⟨ascii "a" ++ [4, 0, 0, 0], []⟩

theorem histories_confused : Collisionless counting
      (callStrings counting (start counting none).domainSeparator (start counting none).state
        [plainCall] ++
      callStrings counting (start counting none).domainSeparator (start counting none).state
        [shiftedCall]) ∧
    [plainCall] ≠ [shiftedCall] ∧
    ∃ u, appendAll counting [plainCall] (start counting none) = (.ok (), u) ∧
      appendAll counting [shiftedCall] (start counting none) = (.ok (), u) := by
  refine ⟨by decide, by decide, _, rfl, ?_⟩
  decide

theorem histories_apart_sample : ∃ u v,
    appendAll counting [plainCall] (start counting none) = (.ok (), u) ∧
    appendAll counting [shiftedCall] (start counting none) = (.ok (), v) ∧
    ((u.state = v.state → [plainCall] = [shiftedCall]) ↔
      ¬ ([plainCall] ≠ [shiftedCall] ∧
        Confusable counting (start counting none) [plainCall] [shiftedCall])) := by
  have sized : (start counting none).state.length = 32 := counting.size _
  exact histories_apart_iff rfl rfl sized (by decide) (by decide)

end TranscriptFraming
