import MixT.Library.Runs
import MixT.Tracking.ClientTracker

/-! # Tracking across a strong and a causal store

Clients run tracked transactions with a strong and a causal phase. Each phase
is a request to a session at its store, and its store effects interleave with
those of other clients. Metadata objects beside the data record which
transaction last wrote a strong object. -/

namespace MixT.Tracking.Protocol

open Library.Runs

/-- The two levels of the stores. -/
inductive Level
  | causal
  | strong
  deriving DecidableEq, Repr

/-- The strong label comes first among the tracked labels. -/
def levels : LabelSequence Level := ⟨[.strong, .causal], by decide⟩

def canAbort : Level → Bool
  | .causal => false
  | .strong => true

/-- The prime that separates metadata names from data names. -/
def bigprimeLin : Int := 2147483659

def isMetaname (base : Int) (name : Name) : Bool := 0 < name && name % base = 0

def makeMetaname (base : Int) (name : Name) : Name := name * base

def isLinMetadata (name : Name) : Bool := isMetaname bigprimeLin name

def makeLinMetaname (name : Name) : Name := makeMetaname bigprimeLin name

/-- An object of a store: data of the program, or a tombstone. -/
inductive Content
  | data (value : Int)
  | tombstone (t : Tombstone)
  deriving DecidableEq, Repr

/-- The objects of a store, the latest version of a name first. -/
abbrev Store := List (Name × Content)

namespace Store

def find (ds : Store) (name : Name) : Option Content :=
  (ds.find? fun entry => entry.1 = name).map Prod.snd

def existsTrk (ds : Store) (name : Name) : Bool := (ds.find name).isSome

def existingTombstone (ds : Store) (name : Name) : Option Tombstone :=
  match ds.find name with
  | some (.tombstone t) => some t
  | _ => none

/-- `newObject` and `put`: a later version of the name. -/
def write (ds : Store) (name : Name) (content : Content) : Store := (name, content) :: ds

end Store

/-- A store effect of a phase. -/
inductive Effect
  | letRemote (name : Name) (timestamp : Clock)
  | refresh (name : Name)
  | operation (name : Name) (value : Int)
  | assignment (name : Name) (value : Int)
  | accompanyWrite (name : Name)
  | writeTombstone

namespace Effect

/-- `insert_tracking`: a strong assignment to a remote is accompanied. -/
def insertTracking : List Effect → List Effect
  | [] => []
  | .assignment name value :: rest =>
      .assignment name value :: .accompanyWrite name :: insertTracking rest
  | effect :: rest => effect :: insertTracking rest

/-- The object an effect reads, for the effects that read one. -/
def reads : Effect → Option Name
  | letRemote name _ => some name
  | refresh name => some name
  | operation name _ => some name
  | _ => none

end Effect

/-- `Tracker::Internals`, one per session. -/
structure SessionTracker where
  encounteredTombstones : List Tombstone
  globalMin : Clock
  newObjectsMax : Clock

def SessionTracker.fresh : SessionTracker := ⟨[], fun _ => 0, fun _ => 0⟩

def SessionTracker.updateClock (trk : SessionTracker) (now : Clock) : SessionTracker :=
  { trk with globalMin := now }

/-- `TrackingContext::Internals`, one per run of a phase. -/
structure TrackingContext where
  pendingNonces : List Tombstone
  newerObjects : List Clock

def TrackingContext.fresh : TrackingContext := ⟨[], []⟩

/-- A phase at its server: the tombstones it still waits for, the effects it
still has to run, its uncommitted writes and the writes it accompanied. -/
structure OpenPhase where
  level : Level
  nonce : Tombstone
  effects : List Effect
  toFind : List Tombstone
  started : Bool
  remaining : List Effect
  writes : Store
  context : TrackingContext
  accompanied : List (Name × Tombstone)

namespace OpenPhase

/-- The request as it arrives. -/
def receive (level : Level) (nonce : Tombstone) (obligations : List Tombstone)
    (effects : List Effect) : OpenPhase where
  level := level
  nonce := nonce
  effects := effects
  toFind := obligations
  started := false
  remaining := effects
  writes := []
  context := .fresh
  accompanied := []

/-- `common_interp` runs the phase from the start after a failed attempt. -/
def restart (phase : OpenPhase) : OpenPhase :=
  { phase with remaining := phase.effects, writes := [], context := .fresh, accompanied := [] }

/-- `checkForTombstones`: remember the tombstone beside a data object. A
metadata name that holds no tombstone fails the phase. -/
def checkForTombstones (phase : OpenPhase) (ds : Store) (name : Name) : Option OpenPhase :=
  if isLinMetadata name then some phase
  else if ds.existsTrk (makeLinMetaname name) then
    (ds.existingTombstone (makeLinMetaname name)).map fun tomb =>
      { phase with
        context := { phase.context with
          pendingNonces := phase.context.pendingNonces ++ [tomb] } }
  else some phase

def recordTimestamp (phase : OpenPhase) (s : Clock) : OpenPhase :=
  { phase with
    context := { phase.context with newerObjects := phase.context.newerObjects ++ [s] } }

/-- `accompanyWrite`: put the nonce beside a data object. -/
def accompanyWrite (phase : OpenPhase) (name : Name) : OpenPhase :=
  if isLinMetadata name then phase
  else { phase with
    writes := phase.writes.write (makeLinMetaname name) (.tombstone phase.nonce)
    accompanied := phase.accompanied ++ [(name, phase.nonce)] }

/-- `writeTombstone`: the name of the nonce must be free. -/
def writeTombstone (phase : OpenPhase) (ds : Store) : Option OpenPhase :=
  if ds.existsTrk phase.nonce.name then none
  else some { phase with
    writes := phase.writes.write phase.nonce.name (.tombstone phase.nonce) }

/-- One effect, against the committed objects of the phase's store. -/
def runEffect (phase : OpenPhase) (committed : Store) : Effect → Option OpenPhase
  | .letRemote name timestamp =>
      let ds := phase.writes ++ committed
      if ds.existsTrk name then
        (phase.checkForTombstones ds name).map fun phase => phase.recordTimestamp timestamp
      else none
  | .refresh name =>
      if Store.existsTrk (phase.writes ++ committed) name then some phase else none
  | .operation name value =>
      if Store.existsTrk (phase.writes ++ committed) name then
        some { phase with writes := phase.writes.write name (.data value) }
      else none
  | .assignment name value =>
      some { phase with writes := phase.writes.write name (.data value) }
  | .accompanyWrite name => some (phase.accompanyWrite name)
  | .writeTombstone => phase.writeTombstone (phase.writes ++ committed)

end OpenPhase

/-- What a run does, as far as the tracking guarantee speaks of it. -/
inductive Event (C : Type*)
  | sent (client : C) (level : Level) (obligations : List Tombstone)
  | started (client : C) (level : Level) (names : List Name)
  | read (client : C) (level : Level) (name : Name)
  | committed (client : C) (level : Level) (accompanied : List (Name × Tombstone))
  | reported (client : C) (level : Level) (tombstones : List Tombstone)
  | failed (client : C) (level : Level)
  deriving DecidableEq

/-- A client with the phases its transaction has still to send. -/
structure Client where
  tracker : ClientTracker Level
  nonce : Tombstone
  phases : List (Level × List Effect)

/-- Both stores, every client with its sessions, and the requests in flight. -/
structure System (C : Type*) where
  stores : Level → Store
  clients : C → Client
  sessions : C → Level → SessionTracker
  requests : C → Option OpenPhase
  history : List (Event C)

inductive Action (C : Type*)
  | begin (client : C) (nonce : Tombstone) (tracked : Bool) (strong causal : List Effect)
  | send (client : C)
  | findTombstone (client : C)
  | start (client : C)
  | effect (client : C)
  | retry (client : C)
  | commit (client : C) (now : Clock) (merged : Bool)
  | fail (client : C)

/-- The phases of a transaction. A tracked one writes its tombstone at both levels. -/
def phasesOf (tracked : Bool) (strong causal : List Effect) : List (Level × List Effect) :=
  if tracked then
    [(.strong, .writeTombstone :: Effect.insertTracking strong),
      (.causal, .writeTombstone :: causal)]
  else [(.strong, strong), (.causal, causal)]

namespace System

variable {C : Type*} [DecidableEq C]

def init : System C where
  stores _ := []
  clients _ := ⟨ClientTracker.fresh, ⟨0, 0, 0⟩, []⟩
  sessions _ _ := .fresh
  requests _ := none
  history := []

def setClient (s : System C) (c : C) (client : Client) : System C :=
  { s with clients := Function.update s.clients c client }

def setRequest (s : System C) (c : C) (request : Option OpenPhase) : System C :=
  { s with requests := Function.update s.requests c request }

def record (s : System C) (e : Event C) : System C := { s with history := s.history ++ [e] }

/-- `store_commit`: the writes of the phase become visible. -/
def commitWrites (s : System C) (phase : OpenPhase) : System C :=
  { s with
    stores := Function.update s.stores phase.level (phase.writes ++ s.stores phase.level) }

def setSession (s : System C) (c : C) (level : Level) (trk : SessionTracker) : System C :=
  { s with sessions := Function.update s.sessions c (Function.update (s.sessions c) level trk) }

/-- The reply to a successful phase: `commit_phase` commits the writes and drops
the context of the phase, and the reply carries what the session's tracker has. -/
def reply (s : System C) (c : C) (phase : OpenPhase) (now : Clock) (merged : Bool) : System C :=
  let trk := (s.sessions c phase.level).updateClock now
  let client := s.clients c
  let response :=
    Response.accepted trk.globalMin trk.newObjectsMax trk.encounteredTombstones merged
  let s := (s.commitWrites phase).record (.committed c phase.level phase.accompanied)
  let s := (s.setSession c phase.level trk).setRequest c none
  let s := s.setClient c { client with
    tracker := remoteInterp levels client.tracker phase.level response
    phases := if merged then client.phases else [] }
  s.record (.reported c phase.level trk.encounteredTombstones)

/-- One step of one client or of its session; `none` where the step is not enabled. -/
def step (s : System C) : Action C → Option (System C)
  | .begin c nonce tracked strong causal =>
      match s.requests c, (s.clients c).phases with
      | none, [] => some (s.setClient c { s.clients c with
          nonce := nonce, phases := phasesOf tracked strong causal })
      | _, _ => none
  | .send c =>
      match s.requests c, (s.clients c).phases with
      | none, (level, effects) :: rest =>
          let obligations := (s.clients c).tracker.tombstonesForPhase level
          let s' := s.setClient c { s.clients c with phases := rest }
          let request := OpenPhase.receive level (s.clients c).nonce obligations effects
          some ((s'.setRequest c (some request)).record (.sent c level obligations))
      | _, _ => none
  | .findTombstone c =>
      match s.requests c with
      | some phase =>
          match phase.toFind with
          | tomb :: rest =>
              if (s.stores phase.level).existsTrk tomb.name then
                some (s.setRequest c (some { phase with toFind := rest }))
              else none
          | [] => none
      | none => none
  | .start c =>
      match s.requests c with
      | some phase =>
          if phase.toFind = [] ∧ phase.started = false then
            some ((s.setRequest c (some { phase with started := true })).record
              (.started c phase.level ((s.stores phase.level).map Prod.fst)))
          else none
      | none => none
  | .effect c =>
      match s.requests c with
      | some phase =>
          match phase.started, phase.remaining with
          | true, effect :: rest =>
              (phase.runEffect (s.stores phase.level) effect).map fun phase =>
                let s := s.setRequest c (some { phase with remaining := rest })
                match effect.reads with
                | some name => s.record (.read c phase.level name)
                | none => s
          | _, _ => none
      | none => none
  | .retry c =>
      match s.requests c with
      | some phase =>
          if phase.started = true ∧ canAbort phase.level = false then
            some (s.setRequest c (some phase.restart))
          else none
      | none => none
  | .commit c now merged =>
      match s.requests c with
      | some phase =>
          if phase.started = true ∧ phase.remaining = [] then some (s.reply c phase now merged)
          else none
      | none => none
  | .fail c =>
      match s.requests c with
      | some phase =>
          let s' := s.setRequest c none
          let s' := s'.setClient c { s.clients c with
            tracker := remoteInterp levels (s.clients c).tracker phase.level .refused
            phases := [] }
          some (s'.record (.failed c phase.level))
      | none => none

end System

end MixT.Tracking.Protocol
