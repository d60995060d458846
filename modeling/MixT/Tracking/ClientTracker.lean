import Mathlib.Data.List.Nodup
import Mathlib.Order.Lattice
import Mathlib.Data.Int.Order.Basic
import Mathlib.Data.Fin.VecNotation

/-! # The client tracker

A client keeps one holder of tombstones for each tracked label. A remote phase
sends the tombstones of its own label, and a reply files the reported
tombstones under the label that follows it. -/

namespace MixT.Tracking

/-- Object names in a store. -/
abbrev Name := Int

/-- A tombstone object, named in its store by the nonce. -/
structure Tombstone where
  nonce : Int
  ipAddr : Int
  portno : Int
  deriving DecidableEq, Repr

namespace Tombstone

/-- The store name of the tombstone object. -/
def name (t : Tombstone) : Name := t.nonce

/-- `std::set` identifies two tombstones when neither nonce is below the other. -/
def equivalent (a b : Tombstone) : Bool := !(a.nonce < b.nonce) && !(b.nonce < a.nonce)

@[simp] theorem equivalent_iff (a b : Tombstone) :
    a.equivalent b = true ↔ a.nonce = b.nonce := by
  simp only [equivalent, Bool.and_eq_true, Bool.not_eq_true', decide_eq_false_iff_not]
  omega

end Tombstone

/-- One entry per replica, as `std::array<long long, 4>`. -/
abbrev Clock := Fin 4 → Int

/-- `ends::max`, entry by entry. -/
def endsMax (a b : Clock) : Clock := fun i => max (a i) (b i)

/-- What the client holds for one label. -/
structure TombHolder where
  obligations : List Tombstone
  observedTombstones : List Tombstone
  globalMinClock : Clock
  maxRecentClock : Clock

namespace TombHolder

/-- The holder of a fresh client. -/
def fresh : TombHolder := ⟨[], [], fun _ => 0, fun _ => 0⟩

def resetObligations (h : TombHolder) : TombHolder := { h with obligations := [] }

/-- `observed_tombstones.count(tomb)` as a test. -/
def observed (h : TombHolder) (tomb : Tombstone) : Bool :=
  h.observedTombstones.any fun t => t.equivalent tomb

/-- One round of the loop in `set_phase_after`. -/
def file (h : TombHolder) (tomb : Tombstone) : TombHolder :=
  if h.observed tomb then h
  else { h with
    obligations := h.obligations ++ [tomb]
    observedTombstones := h.observedTombstones ++ [tomb] }

def updateClocks (h : TombHolder) (globalMinClock recentClock : Clock) : TombHolder :=
  { h with
    globalMinClock := endsMax globalMinClock h.globalMinClock
    maxRecentClock := endsMax h.maxRecentClock recentClock }

@[simp] theorem resetObligations_obligations (h : TombHolder) :
    h.resetObligations.obligations = [] := rfl

@[simp] theorem resetObligations_observed (h : TombHolder) :
    h.resetObligations.observedTombstones = h.observedTombstones := rfl

@[simp] theorem updateClocks_obligations (h : TombHolder) (a b : Clock) :
    (h.updateClocks a b).obligations = h.obligations := rfl

@[simp] theorem updateClocks_observed (h : TombHolder) (a b : Clock) :
    (h.updateClocks a b).observedTombstones = h.observedTombstones := rfl

theorem observed_iff (h : TombHolder) (tomb : Tombstone) :
    h.observed tomb = true ↔ ∃ t ∈ h.observedTombstones, t.nonce = tomb.nonce := by
  simp [observed]

end TombHolder

/-- The labels of a tracker as a typeset: in a fixed sequence, without repeats. -/
structure LabelSequence (L : Type*) where
  labels : List L
  nodup : labels.Nodup

/-- `follows_in_sequence`, with `none` for the mismatch at the end. -/
def followsInSequence {L : Type*} [DecidableEq L] (l : L) : List L → Option L
  | first :: second :: rest =>
      if l = first then some second else followsInSequence l (second :: rest)
  | _ => none

section Follows

variable {L : Type*} [DecidableEq L]

theorem follows_mem_tail {l n : L} {first : L} {rest : List L}
    (h : followsInSequence l (first :: rest) = some n) : n ∈ rest := by
  induction rest generalizing first with
  | nil => simp [followsInSequence] at h
  | cons second rest ih =>
      simp only [followsInSequence] at h
      split at h
      · simp only [Option.some.injEq] at h
        simp [h]
      · exact List.mem_cons_of_mem _ (ih h)

/-- The following label is a different one. -/
theorem follows_ne {labels : List L} (nodup : labels.Nodup) {l n : L}
    (h : followsInSequence l labels = some n) : n ≠ l := by
  induction labels with
  | nil => simp [followsInSequence] at h
  | cons first rest ih =>
      cases rest with
      | nil => simp [followsInSequence] at h
      | cons second rest =>
          rw [List.nodup_cons] at nodup
          have hmem := follows_mem_tail h
          simp only [followsInSequence] at h
          split at h
          · rename_i heq
            rintro rfl
            exact nodup.1 (heq ▸ hmem)
          · exact ih nodup.2 h

end Follows

/-- One holder per label. -/
abbrev ClientTracker (L : Type*) := L → TombHolder

namespace ClientTracker

variable {L : Type*} [DecidableEq L]

def fresh : ClientTracker L := fun _ => TombHolder.fresh

def tombstonesForPhase (trk : ClientTracker L) (phase : L) : List Tombstone :=
  (trk phase).obligations

def clearTombstones (trk : ClientTracker L) (phase : L) : ClientTracker L :=
  Function.update trk phase (trk phase).resetObligations

def updateClocks (trk : ClientTracker L) (phase : L)
    (globalMinClock recentClock : Clock) : ClientTracker L :=
  Function.update trk phase ((trk phase).updateClocks globalMinClock recentClock)

/-- File the reported tombstones under the following label, if there is one. -/
def setPhaseAfter (seq : LabelSequence L) (trk : ClientTracker L) (phase : L)
    (ptr : List Tombstone) : ClientTracker L :=
  match followsInSequence phase seq.labels with
  | none => trk
  | some next =>
      Function.update trk next (ptr.foldl TombHolder.file (trk next).resetObligations)

end ClientTracker

/-- What a client sees of a remote phase. A reply can be lost after the server
ran the phase, and the merge of the returned values can throw after the report
was filed. -/
inductive Response
  | refused
  | lost (executed : Bool)
  | accepted (newMinClock newRecentClock : Clock) (newTombstones : List Tombstone)
      (merged : Bool)

namespace Response

/-- The phase succeeded at the server. -/
def succeeded : Response → Bool
  | refused => false
  | lost executed => executed
  | accepted _ _ _ _ => true

/-- The client leaves `remote_interp` by an exception. -/
def throws : Response → Bool
  | refused => true
  | lost _ => true
  | accepted _ _ _ merged => !merged

/-- The tombstones of a report that reached the client. -/
def report : Response → Option (List Tombstone)
  | accepted _ _ newTombstones _ => some newTombstones
  | _ => none

end Response

variable {L : Type*} [DecidableEq L]

/-- `remote_interp` on the tracker. -/
def remoteInterp (seq : LabelSequence L) (trk : ClientTracker L) (phase : L) :
    Response → ClientTracker L
  | .refused => trk
  | .lost _ => trk
  | .accepted newMinClock newRecentClock newTombstones merged =>
      let trk := trk.updateClocks phase newMinClock newRecentClock
      let trk := trk.setPhaseAfter seq phase newTombstones
      if merged then trk.clearTombstones phase else trk

/-- One phase of a transaction, run at its own store or in the client. -/
inductive PhaseRun (L : Type*)
  | locally (label : L) (throws : Bool)
  | remotely (label : L) (response : Response)

namespace PhaseRun

def throws : PhaseRun L → Bool
  | locally _ throws => throws
  | remotely _ response => response.throws

/-- A local phase uses the client's own tracker and leaves the holders alone. -/
def runOn (seq : LabelSequence L) (trk : ClientTracker L) : PhaseRun L → ClientTracker L
  | locally _ _ => trk
  | remotely label response => remoteInterp seq trk label response

end PhaseRun

/-- `dispatch_to_runner`: the phases in order, up to and including one that throws. -/
def dispatchToRunner (seq : LabelSequence L) (trk : ClientTracker L) :
    List (PhaseRun L) → ClientTracker L
  | [] => trk
  | phase :: remains =>
      if phase.throws then phase.runOn seq trk
      else dispatchToRunner seq (phase.runOn seq trk) remains

/-- The phases of a transaction that run. -/
def executedPhases : List (PhaseRun L) → List (PhaseRun L)
  | [] => []
  | phase :: remains => if phase.throws then [phase] else phase :: executedPhases remains

/-- A transaction acts on the tracker through the phases that run. -/
theorem dispatchToRunner_eq_foldl (seq : LabelSequence L) (phases : List (PhaseRun L))
    (trk : ClientTracker L) :
    dispatchToRunner seq trk phases =
      (executedPhases phases).foldl (fun trk phase => phase.runOn seq trk) trk := by
  induction phases generalizing trk with
  | nil => rfl
  | cons phase remains ih =>
      simp only [dispatchToRunner, executedPhases]
      split
      · rfl
      · exact ih _

/-- A client runs its transactions one after another with one tracker. -/
def runTransactions (seq : LabelSequence L) (trk : ClientTracker L)
    (txns : List (List (PhaseRun L))) : ClientTracker L :=
  txns.foldl (dispatchToRunner seq) trk

theorem runTransactions_eq_foldl (seq : LabelSequence L) (txns : List (List (PhaseRun L)))
    (trk : ClientTracker L) :
    runTransactions seq trk txns =
      (txns.flatMap executedPhases).foldl (fun trk phase => phase.runOn seq trk) trk := by
  induction txns generalizing trk with
  | nil => rfl
  | cons phases rest ih =>
      simp only [runTransactions, List.foldl_cons, List.flatMap_cons, List.foldl_append,
        ← dispatchToRunner_eq_foldl]
      exact ih _

end MixT.Tracking
