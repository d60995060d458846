import MixT.Tracking.ClientTracker

/-!
# What a server session reports

A store session keeps one tracker for all its phases. Each attempt at a phase gathers
the tombstones and timestamps of its reads in a context of its own. The reply to a
client carries what the tracker holds.
-/

namespace MixT.Tracking

/-- The number in `big_prime`. -/
def bigprimeLin : Int := 2147483659

def isMetaname (base : Int) (name : Name) : Bool := decide (0 < name) && name % base == 0

def isLinMetadata (name : Name) : Bool := isMetaname bigprimeLin name

/-- The read of an object: its name, the tombstone under its metadata name at the store, and
its timestamp. -/
structure ObjectRead where
  name : Name
  metadata : Option Tombstone
  timestamp : Clock

/-- What an attempt gathers. -/
structure TrackingContext where
  pendingNonces : List Tombstone
  newerObjects : List Clock

namespace TrackingContext

def fresh : TrackingContext := ⟨[], []⟩

def checkForTombstones (ctx : TrackingContext) (r : ObjectRead) : TrackingContext :=
  if isLinMetadata r.name then ctx
  else { ctx with pendingNonces := ctx.pendingNonces ++ r.metadata.toList }

def recordTimestamp (ctx : TrackingContext) (r : ObjectRead) : TrackingContext :=
  { ctx with newerObjects := ctx.newerObjects ++ [r.timestamp] }

/-- `read_tracking_actions`, compiled in under `TRACK`. -/
def readTrackingActions (track : Bool) (ctx : TrackingContext) (r : ObjectRead) :
    TrackingContext :=
  if track then (ctx.checkForTombstones r).recordTimestamp r else ctx

end TrackingContext

/-- The tracker of a session. -/
structure Tracker where
  encounteredTombstones : List Tombstone
  globalMin : Clock
  newObjectsMax : Clock

namespace Tracker

def fresh : Tracker := ⟨[], fun _ => 0, fun _ => 0⟩

/-- `updateClock`, with the clock the manager holds. -/
def updateClock (trk : Tracker) (newc : Clock) : Tracker := { trk with globalMin := newc }

end Tracker

inductive AttemptEnding
  | committed
  | serializationFailure
  | failed
  deriving DecidableEq

/-- An attempt at a phase. -/
structure Attempt where
  /-- The manager's clock when the context is made. -/
  clock : Clock
  reads : List ObjectRead
  ending : AttemptEnding

namespace Attempt

def context (track : Bool) (a : Attempt) : TrackingContext :=
  a.reads.foldl (TrackingContext.readTrackingActions track) TrackingContext.fresh

/-- The tombstones its reads find. -/
def found (track : Bool) (a : Attempt) : List Tombstone :=
  a.reads.flatMap fun r => if track && !isLinMetadata r.name then r.metadata.toList else []

/-- The timestamps of the objects it reads. -/
def timestamps (a : Attempt) : List Clock := a.reads.map ObjectRead.timestamp

end Attempt

/-- `commit_phase`: the store's transaction is committed. Nothing calls `commitContext`, so the
context of the attempt ends with it. -/
def commitPhase (trk : Tracker) (_ctx : TrackingContext) : Tracker := trk

/-- `common_interp_loop`, on the tracker. -/
def commonInterpLoop (track : Bool) (trk : Tracker) (a : Attempt) : Tracker :=
  let trk := trk.updateClock a.clock
  match a.ending with
  | .committed => commitPhase trk (a.context track)
  | _ => trk

/-- How `common_interp` ends: with the attempt that committed, by an exception, or not yet. -/
inductive Interp
  | returned (trk : Tracker) (a : Attempt)
  | threw (trk : Tracker)
  | retrying (trk : Tracker)

/-- `common_interp`, with the attempts it makes. Labels that can abort are not tried again. -/
def commonInterp (track canAbort : Bool) (trk : Tracker) : List Attempt → Interp
  | [] => .retrying trk
  | a :: rest =>
      let trk := commonInterpLoop track trk a
      match a.ending with
      | .committed => .returned trk a
      | .failed => .threw trk
      | .serializationFailure => if canAbort then .threw trk else commonInterp track canAbort trk rest

/-- A phase as a session runs it. -/
structure ServerPhase where
  canAbort : Bool
  /-- The manager's clock when tombstones are looked for. -/
  waitClock : Clock
  /-- The tombstones were found and no exception thrown. -/
  waited : Bool
  attempts : List Attempt
  /-- The manager's clock at the reply. -/
  replyClock : Clock

inductive Reply
  | success (minClock recentClock : Clock) (tombstones : List Tombstone)
  | failure

/-- `run_phase` of the server: the tracker after it, and the reply with the attempt it reports
on. Without a reply the session is still running the phase. -/
def runPhase (track : Bool) (trk : Tracker) (p : ServerPhase) :
    Tracker × Option (Reply × Option Attempt) :=
  let trk := trk.updateClock p.waitClock
  if p.waited then
    match commonInterp track p.canAbort trk p.attempts with
    | .returned trk a =>
        let trk := trk.updateClock p.replyClock
        (trk, some (.success trk.globalMin trk.newObjectsMax trk.encounteredTombstones, some a))
    | .threw trk => (trk, some (.failure, none))
    | .retrying trk => (trk, none)
  else (trk, some (.failure, none))

/-- The replies of a session, each success with the attempt it reports on. A phase that gets no
reply is the last one. -/
def runSession (track : Bool) (trk : Tracker) : List ServerPhase → List (Reply × Option Attempt)
  | [] => []
  | p :: phases =>
      match runPhase track trk p with
      | (trk, some reply) => reply :: runSession track trk phases
      | (_, none) => []

/-- The entries of the timestamps, on top of a previous clock. -/
def raisedBy (previous : Clock) (timestamps : List Clock) : Clock :=
  timestamps.foldr endsMax previous

/-- Each success reports exactly the tombstones its attempt found, and the clock last sent raised
by the timestamps its attempt read. -/
def ExactReplies (track : Bool) (previous : Clock) : List (Reply × Option Attempt) → Prop
  | [] => True
  | (.success _ recentClock tombstones, some a) :: rest =>
      (tombstones = a.found track ∧ recentClock = raisedBy previous a.timestamps) ∧
        ExactReplies track recentClock rest
  | _ :: rest => ExactReplies track previous rest

namespace ServerPhase

/-- The attempt after which the phase is not tried again. -/
def decided (p : ServerPhase) : Option Attempt :=
  p.attempts.find? fun a => p.canAbort || a.ending != .serializationFailure

/-- The phase gets a reply. -/
def answered (p : ServerPhase) : Bool := !p.waited || p.decided.isSome

/-- The attempt a successful reply is about. -/
def Succeeds (p : ServerPhase) (a : Attempt) : Prop :=
  p.waited = true ∧ p.decided = some a ∧ a.ending = .committed

end ServerPhase

/-- The attempt found no tombstone and read no object newer than the zero clock. -/
def Attempt.Unremarkable (track : Bool) (a : Attempt) : Prop :=
  a.found track = [] ∧ ∀ t ∈ a.timestamps, ∀ i, t i ≤ 0

theorem raisedBy_eq_iff (previous : Clock) (timestamps : List Clock) :
    previous = raisedBy previous timestamps ↔ ∀ t ∈ timestamps, ∀ i, t i ≤ previous i := by
  induction timestamps with
  | nil => simp [raisedBy]
  | cons t rest ih =>
      have above : ∀ i, previous i ≤ raisedBy previous rest i := by
        intro i
        clear ih
        induction rest with
        | nil => exact le_rfl
        | cons u rest ih => exact ih.trans (le_max_right _ _)
      rw [List.forall_mem_cons, ← ih]
      constructor
      · intro same
        have entry : ∀ i, previous i = max (t i) (raisedBy previous rest i) := congrFun same
        refine ⟨fun i => (entry i).symm ▸ le_max_left _ _, ?_⟩
        ext i
        exact le_antisymm (above i) ((entry i).symm ▸ le_max_right _ _)
      · rintro ⟨below, same⟩
        ext i
        calc
          previous i = max (t i) (previous i) := (max_eq_right (below i)).symm
          _ = max (t i) (raisedBy previous rest i) := by rw [← congrFun same i]

namespace Tracker

/-- What a reply takes from the tracker is as it was. -/
def SameReports (trk trk' : Tracker) : Prop :=
  trk'.encounteredTombstones = trk.encounteredTombstones ∧
    trk'.newObjectsMax = trk.newObjectsMax

theorem SameReports.refl (trk : Tracker) : trk.SameReports trk := ⟨rfl, rfl⟩

theorem SameReports.trans {a b c : Tracker} (h : a.SameReports b) (h' : b.SameReports c) :
    a.SameReports c := ⟨h'.1.trans h.1, h'.2.trans h.2⟩

theorem updateClock_sameReports (trk : Tracker) (newc : Clock) :
    trk.SameReports (trk.updateClock newc) := ⟨rfl, rfl⟩

end Tracker

/-- An attempt leaves nothing for a reply, even where it commits. -/
theorem commonInterpLoop_sameReports (track : Bool) (trk : Tracker) (a : Attempt) :
    trk.SameReports (commonInterpLoop track trk a) := by
  rw [commonInterpLoop]
  split
  · exact trk.updateClock_sameReports a.clock
  · exact trk.updateClock_sameReports a.clock

/-- The phase ends with the deciding attempt. -/
theorem commonInterp_eq (track canAbort : Bool) (attempts : List Attempt) (trk : Tracker) :
    ∃ trk', trk.SameReports trk' ∧ commonInterp track canAbort trk attempts =
      match attempts.find? fun a => canAbort || a.ending != .serializationFailure with
      | none => .retrying trk'
      | some a => if a.ending = .committed then .returned trk' a else .threw trk' := by
  induction attempts generalizing trk with
  | nil => exact ⟨trk, .refl trk, rfl⟩
  | cons a rest ih =>
      have same := commonInterpLoop_sameReports track trk a
      cases h : a.ending with
      | committed => exact ⟨_, same, by simp [commonInterp, h]⟩
      | failed => exact ⟨_, same, by simp [commonInterp, h]⟩
      | serializationFailure =>
          cases canAbort with
          | true => exact ⟨_, same, by simp [commonInterp, h]⟩
          | false =>
              obtain ⟨trk', later, equal⟩ := ih (commonInterpLoop track trk a)
              refine ⟨trk', same.trans later, ?_⟩
              simpa [commonInterp, h] using equal

/-- A reply is made of what the tracker held before. -/
theorem runPhase_cases (track : Bool) (trk : Tracker) (p : ServerPhase) :
    ∃ trk', trk.SameReports trk' ∧
      ((p.answered = false ∧ runPhase track trk p = (trk', none)) ∨
      (p.answered = true ∧ (∀ a, ¬ p.Succeeds a) ∧
        runPhase track trk p = (trk', some (.failure, none))) ∨
      (p.answered = true ∧ ∃ a, p.Succeeds a ∧ runPhase track trk p =
        (trk', some (.success trk'.globalMin trk.newObjectsMax trk.encounteredTombstones,
          some a)))) := by
  have start := trk.updateClock_sameReports p.waitClock
  cases waited : p.waited with
  | false =>
      refine ⟨trk.updateClock p.waitClock, start, Or.inr (Or.inl ⟨?_, ?_, ?_⟩)⟩
      · simp [ServerPhase.answered, waited]
      · rintro a ⟨w, -⟩
        simp [waited] at w
      · simp [runPhase, waited]
  | true =>
      obtain ⟨trk', later, equal⟩ :=
        commonInterp_eq track p.canAbort p.attempts (trk.updateClock p.waitClock)
      have same := start.trans later
      cases decided : p.decided with
      | none =>
          refine ⟨trk', same, Or.inl ⟨by simp [ServerPhase.answered, waited, decided], ?_⟩⟩
          simp only [ServerPhase.decided] at decided
          rw [decided] at equal
          simp [runPhase, waited, equal]
      | some a =>
          have answered : p.answered = true := by simp [ServerPhase.answered, decided]
          have found := decided
          simp only [ServerPhase.decided] at found
          rw [found] at equal
          by_cases committed : a.ending = .committed
          · refine ⟨trk'.updateClock p.replyClock, same.trans (trk'.updateClock_sameReports _),
              Or.inr (Or.inr ⟨answered, a, ⟨waited, decided, committed⟩, ?_⟩)⟩
            simp only [committed, if_true] at equal
            simp only [runPhase, waited, if_true, equal]
            rw [← same.1, ← same.2]
            rfl
          · refine ⟨trk', same, Or.inr (Or.inl ⟨answered, ?_, ?_⟩)⟩
            · rintro b ⟨-, other, ends⟩
              rw [decided] at other
              exact committed (Option.some.inj other ▸ ends)
            · simp only [committed, if_false] at equal
              simp [runPhase, waited, equal]

/-- From a tracker without tombstones, replies are exact while the attempts they report on find
nothing and read nothing newer than its clock. -/
theorem exactReplies_iff (track : Bool) (phases : List ServerPhase) (trk : Tracker)
    (empty : trk.encounteredTombstones = []) (zero : trk.newObjectsMax = fun _ => 0) :
    ExactReplies track (fun _ => 0) (runSession track trk phases) ↔
      ∀ p ∈ phases.takeWhile ServerPhase.answered, ∀ a, p.Succeeds a → a.Unremarkable track := by
  induction phases generalizing trk with
  | nil => simp [runSession, ExactReplies]
  | cons p phases ih =>
      obtain ⟨trk', same, unanswered | ⟨answered, fails, run⟩ | ⟨answered, a, succeeds, run⟩⟩ :=
        runPhase_cases track trk p
      · simp [runSession, unanswered.2, unanswered.1, ExactReplies]
      · rw [runSession, run, List.takeWhile_cons_of_pos answered, List.forall_mem_cons,
          ← ih trk' (same.1.trans empty) (same.2.trans zero)]
        have none : ∀ a, p.Succeeds a → a.Unremarkable track := fun a h => absurd h (fails a)
        exact (and_iff_right none).symm
      · rw [runSession, run, List.takeWhile_cons_of_pos answered, List.forall_mem_cons,
          ← ih trk' (same.1.trans empty) (same.2.trans zero), empty, zero]
        apply and_congr_left
        intro _
        have only : (∀ b, p.Succeeds b → b.Unremarkable track) ↔ a.Unremarkable track := by
          refine ⟨fun h => h a succeeds, fun h b other => ?_⟩
          have : a = b := Option.some.inj (succeeds.2.1.symm.trans other.2.1)
          exact this ▸ h
        rw [only, Attempt.Unremarkable, ← raisedBy_eq_iff]
        exact and_congr_left fun _ => eq_comm

/-- The replies of a session are exact exactly while its successful attempts find no tombstone
and read no object newer than the zero clock. -/
theorem sessionExact_iff (track : Bool) (phases : List ServerPhase) :
    ExactReplies track (fun _ => 0) (runSession track Tracker.fresh phases) ↔
      ∀ p ∈ phases.takeWhile ServerPhase.answered, ∀ a, p.Succeeds a → a.Unremarkable track :=
  exactReplies_iff track phases Tracker.fresh rfl rfl

/-- One phase whose only attempt commits and reads an object with a tombstone. -/
def tombstoneRead : ServerPhase :=
  ⟨false, fun _ => 0, true, [⟨fun _ => 0, [⟨3, some ⟨7, 0, 0⟩, ![1, 0, 0, 0]⟩], .committed⟩],
    fun _ => 0⟩

/-- The tombstone is not reported. -/
theorem tombstoneRead_unreported :
    ¬ ExactReplies true (fun _ => 0) (runSession true Tracker.fresh [tombstoneRead]) := by
  rintro ⟨⟨reported, -⟩, -⟩
  simp [Attempt.found, isLinMetadata, isMetaname, bigprimeLin, commonInterpLoop, commitPhase,
    Tracker.updateClock, Tracker.fresh] at reported

end MixT.Tracking
