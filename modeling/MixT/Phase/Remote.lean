import MixT.Phase.Region
import MixT.Phase.Retry

/-! # Phases that run at another process

A phase whose label says so runs at the store of its label: what it requires and the maps of
its label are sent there, it runs in a store of its own, and what it provides comes back. -/

namespace MixT.Phase

open Library Eff

/-- `phase`: what it does, whether it returns nothing, what it needs from the phases before it, what
those after it need, and what no other phase needs. Its store has maps for some types of handles. -/
structure RunnablePhase (L : Type*) where
  ast : Stmt L
  label : L
  returnsVoid : Bool
  requirements : List VarName
  provides : List VarName
  owned : List VarName
  maps : List (Ty L)

section Refreshing

variable {L : Type*} [DecidableEq L]

/-- The phase as it runs in a store with the given maps: `run_phase` of `RefreshRemoteOccurance` does
nothing where the map is not there. -/
def Stmt.forStore (maps : List (Ty L)) : Stmt L → Stmt L
  | .letIn x e body => .letIn x e (forStore maps body)
  | .letRemote x h body => .letRemote x h (forStore maps body)
  | .refreshRemoteOccurance handle x =>
      if maps.contains handle then .refreshRemoteOccurance handle x else .nil
  | .ifThen c t e => .ifThen c (forStore maps t) (forStore maps e)
  | .whileLoop name c body => .whileLoop name c (forStore maps body)
  | .forEach name body => .forEach name (forStore maps body)
  | .cons first rest => .cons (forStore maps first) (forStore maps rest)
  | s => s

/-- The types of the handles that a phase refreshes. -/
def Stmt.refreshed : Stmt L → List (Ty L)
  | .letIn _ _ body => refreshed body
  | .letRemote _ _ body => refreshed body
  | .refreshRemoteOccurance handle _ => [handle]
  | .ifThen _ t e => refreshed t ++ refreshed e
  | .whileLoop _ _ body => refreshed body
  | .forEach _ body => refreshed body
  | .cons first rest => refreshed first ++ refreshed rest
  | _ => []

theorem Stmt.forStore_congr {maps maps' : List (Ty L)} {s : Stmt L}
    (same : ∀ t ∈ s.refreshed, t ∈ maps ↔ t ∈ maps') : s.forStore maps = s.forStore maps' := by
  induction s with
  | refreshRemoteOccurance handle x =>
      have same := same handle (List.mem_singleton_self handle)
      simp only [forStore, List.contains_iff_mem, same]
  | ifThen c t e iht ihe =>
      rw [forStore, forStore, iht fun t ht => same t (List.mem_append_left _ ht),
        ihe fun t ht => same t (List.mem_append_right _ ht)]
  | cons first rest ihf ihr =>
      rw [forStore, forStore, ihf fun t ht => same t (List.mem_append_left _ ht),
        ihr fun t ht => same t (List.mem_append_right _ ht)]
  | letIn x e body ih => rw [forStore, forStore, ih same]
  | letRemote x h body ih => rw [forStore, forStore, ih same]
  | whileLoop name c body ih => rw [forStore, forStore, ih same]
  | forEach name body ih => rw [forStore, forStore, ih same]
  | _ => rfl

end Refreshing

section Transfer

variable {L V : Type} [Inhabited V]

/-- A holder as it arrives. The value of one that was never bound is sent as well. -/
def Holder.delivered : Holder L V → Holder L V
  | .value t => .value (some (t.getD default))
  | h => h

theorem Holder.alike_delivered (h : Holder L V) : h.Alike h.delivered := by
  cases h with
  | value t => exact .value rfl
  | type h => exact .refl _
  | remote handleType handle currPos => exact .refl _

@[simp] theorem Holder.fresh_delivered (h : Holder L V) : h.delivered.fresh = h.fresh := by
  cases h <;> rfl

omit [Inhabited V] in
/-- A store as it is constructed, with the holders of another one. -/
def Mem.constructed (m : Mem L V) : Mem L V where
  holders x := (m.holders x).fresh
  super _ _ := .empty

variable [DecidableEq L] [Bot L] (l : L)

/-- The maps of a label. -/
def ofMapLabel (types : List (Ty L)) : List (Ty L) := types.filter fun t => t.label = some l

/-- `send_remote_maps`. -/
def sendRemoteMaps (types : List (Ty L)) (m : Mem L V) : List (Nat → TypeHolder V) :=
  (ofMapLabel l types).map m.super

/-- A map arrives. Its entries replace those that are there for the same objects, and an entry that
nothing was pushed to is none. -/
def takeMap (arrived map : Nat → TypeHolder V) (name : Nat) : TypeHolder V :=
  if (arrived name).t.isEmpty then map name else arrived name

/-- The maps that arrive are taken one after the other. -/
def takeMaps : List (Ty L) → List (Nat → TypeHolder V) → Mem L V → Mem L V
  | t :: types, map :: maps, m =>
      takeMaps types maps { m with super := Function.update m.super t (takeMap map (m.super t)) }
  | _, _, m => m

/-- `receive_remote_maps`. -/
def receiveRemoteMaps (types : List (Ty L)) (maps : List (Nat → TypeHolder V)) (m : Mem L V) :
    Mem L V := takeMaps (ofMapLabel l types) maps m

/-- `send_store_values` at one process and `receive_store_values` at another one. -/
def transfer (names : List VarName) (sentTypes types : List (Ty L)) (sent m : Mem L V) : Mem L V :=
  let m := receiveRemoteMaps l types (sendRemoteMaps l sentTypes sent) m
  { m with holders := fun x => if x ∈ names then (sent.holders x).delivered else m.holders x }

omit [Inhabited V] [DecidableEq L] [Bot L] in
@[simp] theorem takeMap_takeMap (arrived map : Nat → TypeHolder V) :
    takeMap arrived (takeMap arrived map) = takeMap arrived map := by
  funext name
  simp only [takeMap]
  split <;> rfl

omit [Inhabited V] [DecidableEq L] [Bot L] in
/-- A map that lacks no entry of the one that it arrives at replaces it, but for positions. -/
theorem takeMap_beginPhase {arrived map : Nat → TypeHolder V} {name : Nat}
    (grown : (arrived name).t = [] → (map name).t = []) :
    (takeMap arrived map name).beginPhase = (arrived name).beginPhase := by
  simp only [takeMap, List.isEmpty_iff]
  split
  · rename_i none
    simp only [TypeHolder.beginPhase, grown none, none]
  · rfl

omit [Inhabited V] [Bot L] in
theorem takeMaps_sent (sent : Mem L V) (types : List (Ty L)) (m : Mem L V) :
    (takeMaps types (types.map sent.super) m).holders = m.holders ∧
      ∀ t, (takeMaps types (types.map sent.super) m).super t =
        if t ∈ types then takeMap (sent.super t) (m.super t) else m.super t := by
  induction types generalizing m with
  | nil => simp [takeMaps]
  | cons t types ih =>
      obtain ⟨holders, super⟩ :=
        ih { m with super := Function.update m.super t (takeMap (sent.super t) (m.super t)) }
      refine ⟨holders, fun t' => ?_⟩
      rw [List.map_cons, takeMaps, super]
      by_cases here : t' = t
      · subst here
        simp
      · simp [here]

variable {l} {names : List VarName} {sentTypes types : List (Ty L)} {sent m : Mem L V}

theorem transfer_holders (same : ofMapLabel l sentTypes = ofMapLabel l types) (x : VarName) :
    (transfer l names sentTypes types sent m).holders x =
      if x ∈ names then (sent.holders x).delivered else m.holders x := by
  simp only [transfer, receiveRemoteMaps, sendRemoteMaps, same, (takeMaps_sent sent _ m).1]

theorem transfer_super (same : ofMapLabel l sentTypes = ofMapLabel l types) (t : Ty L) :
    (transfer l names sentTypes types sent m).super t =
      if t ∈ ofMapLabel l types then takeMap (sent.super t) (m.super t) else m.super t := by
  simp only [transfer, receiveRemoteMaps, sendRemoteMaps, same, (takeMaps_sent sent _ m).2]

end Transfer

section Dispatch

variable {L V F Sh : Type} [Inhabited V] [DecidableEq L] [Bot L] (host : Host V F)
  (backend : L → Backend V F Sh) (rightFirst : List Expr → Bool) (n : Nat) (types : List (Ty L))

/-- An attempt of `common_interp` at a phase, in a store with the given maps. -/
def attemptLocally (maps : List (Ty L)) (p : RunnablePhase L) (m : Mem L V) (sh : Sh) :
    Except (Signal V F) Unit × Mem L V × Sh :=
  (exec host (backend p.label) rightFirst n (p.ast.forStore maps)).run (m.beginPhase, sh)

/-- An attempt at a phase by `remote_interp` and the listener's `run_phase`. -/
def attemptRemotely (p : RunnablePhase L) (m : Mem L V) (sh : Sh) :
    Except (Signal V F) Unit × Mem L V × Sh :=
  let server := transfer p.label p.requirements types p.maps m m.constructed
  let (result, server, sh) := attemptLocally host backend rightFirst n p.maps p server sh
  (result, transfer p.label p.provides p.maps types server m, sh)

/-- What follows an attempt. -/
inductive Verdict
  | committed
  | retried
  | thrown

/-- What `common_interp` makes of an attempt, whose commit has a fault or none. A serialization
failure is tried again where the label cannot abort. -/
def verdict (serialization : F → Bool) (canAbort : Bool) (p : RunnablePhase L)
    (result : Except (Signal V F) Unit) (commit : Option F) : Verdict :=
  let failed (f : F) : Verdict := if serialization f && !canAbort then .retried else .thrown
  match result with
  | .ok _ => if p.returnsVoid then commit.elim .committed failed else .thrown
  | .error (.returned _) => commit.elim .committed failed
  | .error (.fault f) => failed f
  | .error .outOfTurns => .thrown

/-- `dispatch_to_runner`. Each attempt finds the stores in some state, and its commit has some fault
or none. The result has, for each attempt, how it ends where it runs and what it makes of the
stores. -/
def dispatchToRunner (serialization : F → Bool) (canAbort runRemotely : L → Bool) :
    List (Sh × Option F) → List (RunnablePhase L) → Mem L V → List (Except (Signal V F) Unit × Sh)
  | [], _, _ => []
  | _ :: _, [], _ => []
  | (sh, commit) :: attempts, p :: phases, m =>
      let (result, m', sh') :=
        if runRemotely p.label then attemptRemotely host backend rightFirst n types p m sh
        else attemptLocally host backend rightFirst n types p m sh
      (result, sh') ::
        match verdict serialization (canAbort p.label) p result commit with
        | .committed => dispatchToRunner serialization canAbort runRemotely attempts phases m'
        | .retried => dispatchToRunner serialization canAbort runRemotely attempts (p :: phases) m
        | .thrown => []

end Dispatch

namespace RunnablePhase

variable {L V : Type} [DecidableEq L] [Bot L]

/-- The variables of the phase's store. -/
def names (p : RunnablePhase L) : List VarName := p.requirements ++ p.provides ++ p.owned

/-- The variables that the phase is the one to bind. -/
def bound (p : RunnablePhase L) : List VarName := p.provides ++ p.owned

omit [DecidableEq L] [Bot L] in
theorem bound_names {p : RunnablePhase L} {x : VarName} (hx : x ∈ p.bound) : x ∈ p.names := by
  rw [names, List.append_assoc]
  exact List.mem_append_right _ hx

/-- What the phase may work on, with the given maps: the variables of its store. -/
def region (p : RunnablePhase L) (types : Ty L → Prop) : Region L where
  names x := x ∈ p.names
  reads x := x ∈ p.names ∧ x ∈ p.ast.reads
  binds x := x ∈ p.bound ∧ x ∈ p.ast.reads
  assigns x := x ∈ p.names ∧ x ∈ p.ast.assigned
  types := types
  reads_names _ h := h.1
  binds_reads _ h := ⟨bound_names h.1, h.2⟩
  assigns_reads _ h := ⟨h.1, p.ast.assigned_reads h.2⟩

end RunnablePhase

section Prepared

variable {L V : Type} [DecidableEq L] [Bot L]

/-- The type of the handles of each remote variable. -/
def Mem.kind (m : Mem L V) (x : VarName) : Option (Ty L) := (m.holders x).handleType

/-- The maps that a phase finds where it runs. -/
def mapsAt (runRemotely : L → Bool) (p : RunnablePhase L) (t : Ty L) : Prop :=
  runRemotely p.label = true → t ∈ ofMapLabel p.label p.maps

/-- The phases of a transaction, before they run over `m`. -/
structure Prepared (runRemotely : L → Bool) (types : List (Ty L)) (m : Mem L V)
    (phases : List (RunnablePhase L)) : Prop where
  /-- A phase works on the variables of its store. -/
  within : ∀ p ∈ phases, (p.ast.forStore types).Within (p.region (mapsAt runRemotely p))
  /-- At another process it refreshes handles of its label. -/
  refreshed : ∀ p ∈ phases, runRemotely p.label = true →
    ∀ t ∈ p.ast.refreshed, t.label = some p.label
  /-- At another process it finds the maps of the remote variables that it reads. -/
  mapped : ∀ p ∈ phases, ∀ x ∈ p.names, x ∈ p.ast.reads → ∀ t, m.kind x = some t →
    mapsAt runRemotely p t
  /-- The two processes have maps for the same types of the label. -/
  aligned : ∀ p ∈ phases, runRemotely p.label = true →
    ofMapLabel p.label types = ofMapLabel p.label p.maps
  /-- What a phase binds is new to it. -/
  once : phases.Pairwise fun p q => ∀ x ∈ p.names, x ∉ q.bound
  /-- What a phase binds and a later one requires it provides. -/
  provided : phases.Pairwise fun p q => ∀ x ∈ p.bound, x ∈ q.requirements → x ∈ p.provides
  /-- What a phase assigns and a later one names it binds, or it is remote. -/
  handed : phases.Pairwise fun p q =>
    ∀ x ∈ p.ast.assigned, x ∈ q.names → x ∈ p.bound ∨ (m.kind x).isSome = true
  /-- Nothing that a phase binds is bound. -/
  unbound : ∀ p ∈ phases, ∀ x ∈ p.bound, m.holders x = (m.holders x).fresh

end Prepared

section Refinement

variable {L V F Sh : Type} [Inhabited V] [DecidableEq L] [Bot L] {host : Host V F}
  {backend : L → Backend V F Sh} {rightFirst : List Expr → Bool} {n : Nat} {types : List (Ty L)}
  {runRemotely : L → Bool}

/-- The store of a client that ran all earlier phases itself, and that of one that had some of
them run elsewhere: they are alike for the phases to come. -/
structure Related (m₀ : Mem L V) (phases : List (RunnablePhase L)) (m c : Mem L V) : Prop where
  live : ∀ p ∈ phases, ∀ x ∈ p.names, (m.holders x).beginPhase.Alike (c.holders x).beginPhase
  unbound : ∀ p ∈ phases, ∀ x ∈ p.bound, (m.holders x).beginPhase = (m₀.holders x).fresh
  fresh : ∀ x, (m.holders x).fresh = (m₀.holders x).fresh
  client : ∀ x, (c.holders x).fresh = (m₀.holders x).fresh
  super : m.beginPhase.super = c.beginPhase.super

variable {m₀ m c : Mem L V} {p : RunnablePhase L} {phases : List (RunnablePhase L)} {sh : Sh}
  {r : Region L}

/-- The region of a phase of the transaction. -/
abbrev RunnablePhase.regionAt (p : RunnablePhase L) (runRemotely : L → Bool) : Region L :=
  p.region (mapsAt runRemotely p)

omit [Inhabited V] [DecidableEq L] [Bot L] in
theorem handleType_eq {g g' : Holder L V} (same : g.fresh = g'.fresh) :
    g.handleType = g'.handleType := by
  rw [← Holder.handleType_fresh, same, Holder.handleType_fresh]

omit [Inhabited V] in
theorem Prepared.mappedAt (prepared : Prepared runRemotely types m₀ phases) (hp : p ∈ phases)
    (fresh : ∀ x, (m.holders x).fresh = (m₀.holders x).fresh) :
    Mapped (p.regionAt runRemotely) m :=
  fun x t hx same => prepared.mapped p hp x hx.1 hx.2 t ((handleType_eq (fresh x)).symm.trans same)

omit [Inhabited V] in
/-- The phase refreshes the same handles at both processes. -/
theorem Prepared.stored (prepared : Prepared runRemotely types m₀ phases) (hp : p ∈ phases)
    (remote : runRemotely p.label = true) : p.ast.forStore p.maps = p.ast.forStore types := by
  apply Stmt.forStore_congr
  intro t ht
  have own := prepared.refreshed p hp remote t ht
  have aligned := congrArg (t ∈ ·) (prepared.aligned p hp remote)
  simpa [ofMapLabel, own] using aligned.symm

omit [Inhabited V] [DecidableEq L] [Bot L] in
theorem fresh_beginPhase_holders (m : Mem L V) (x : VarName) :
    (m.beginPhase.holders x).fresh = (m.holders x).fresh := by
  rw [beginPhase_holders, Holder.fresh_beginPhase]

/-- A phase finds the same in the client's store. -/
theorem Related.start (related : Related m₀ phases m c) (hp : p ∈ phases)
    (prepared : Prepared runRemotely types m₀ phases) :
    Matches (p.regionAt runRemotely) m.beginPhase c.beginPhase := by
  refine ⟨fun x hx => ?_, fun t _ => by rw [related.super], ?_⟩
  · rw [beginPhase_holders, beginPhase_holders]
    exact related.live p hp x hx
  · apply prepared.mappedAt hp
    intro x
    rw [fresh_beginPhase_holders, related.fresh]

/-- A phase finds the same in the store at another process. -/
theorem Related.startRemotely (related : Related m₀ phases m c) (hp : p ∈ phases)
    (prepared : Prepared runRemotely types m₀ phases) (remote : runRemotely p.label = true) :
    Matches (p.regionAt runRemotely) m.beginPhase
      (transfer p.label p.requirements types p.maps c c.constructed).beginPhase := by
  have aligned := prepared.aligned p hp remote
  have here := related.start hp prepared
  refine ⟨fun x hx => ?_, fun t ht => ?_, here.mapped⟩
  · rw [beginPhase_holders, beginPhase_holders, transfer_holders aligned]
    split
    · exact (related.live p hp x hx).trans (c.holders x).alike_delivered.beginPhase
    · rename_i other
      have bound : x ∈ p.bound := by
        rw [RunnablePhase.regionAt, RunnablePhase.region] at hx
        simp only [RunnablePhase.names, List.append_assoc] at hx
        exact (List.mem_append.mp hx).resolve_left other
      rw [related.unbound p hp x bound]
      simp only [Mem.constructed, Holder.beginPhase_fresh, related.client]
      exact .refl _
  · funext name
    simp only [Mem.beginPhase, transfer_super aligned, if_pos (ht remote)]
    rw [takeMap_beginPhase (by simp [Mem.constructed, TypeHolder.empty])]
    exact congrFun (congrFun related.super t) name

variable (host backend rightFirst n sh) in
omit [Bot L] in
/-- Over stores that match where it works, an attempt ends alike. -/
theorem attempt_matches {maps maps' : List (Ty L)} (within : (p.ast.forStore maps).Within r)
    (same : p.ast.forStore maps' = p.ast.forStore maps)
    (start : Matches r m.beginPhase c.beginPhase) :
    (attemptLocally host backend rightFirst n maps p m sh).1 =
        (attemptLocally host backend rightFirst n maps' p c sh).1 ∧
      Matches r (attemptLocally host backend rightFirst n maps p m sh).2.1
        (attemptLocally host backend rightFirst n maps' p c sh).2.1 ∧
      (attemptLocally host backend rightFirst n maps p m sh).2.2 =
        (attemptLocally host backend rightFirst n maps' p c sh).2.2 := by
  have sim : Sim (On (Matches r) : Mem L V × Sh → Mem L V × Sh → Prop) Eq
      (exec host (backend p.label) rightFirst n (p.ast.forStore maps))
      (exec host (backend p.label) rightFirst n (p.ast.forStore maps)) := exec_matches n within
  obtain ⟨results, states⟩ := sim (m.beginPhase, sh) (c.beginPhase, sh) ⟨start, rfl⟩
  simp only [attemptLocally, same]
  exact ⟨results.eq, states⟩

variable (host backend rightFirst n sh) in
omit [Bot L] in
theorem attempt_spares {maps : List (Ty L)} (within : (p.ast.forStore maps).Within r)
    (mapped : Mapped r m.beginPhase) :
    Spares r m.beginPhase (attemptLocally host backend rightFirst n maps p m sh).2.1 :=
  (exec_spares mapped n within (m.beginPhase, sh) (Spares.refl r _)).1

omit [Inhabited V] [DecidableEq L] [Bot L] in
/-- What a phase neither binds nor, unless it is remote, assigns it leaves as it was, but for
cursors. -/
theorem Spares.unchanged {m' : Mem L V} {maps : Ty L → Prop} {x : VarName}
    (spares : Spares (p.region maps) m.beginPhase m')
    (fresh : ∀ y, (m.holders y).fresh = (m₀.holders y).fresh) (other : x ∉ p.bound)
    (remote : x ∈ p.ast.assigned → (m₀.kind x).isSome = true) :
    (m'.holders x).beginPhase = (m.holders x).beginPhase := by
  have keeps : (p.region maps).Keeps m.beginPhase x := by
    refine ⟨fun bound => other bound.1, fun assigned => ?_⟩
    rw [handleType_eq ((fresh_beginPhase_holders m x).trans (fresh x))]
    exact remote assigned.2
  rw [spares.values x keeps, beginPhase_holders, Holder.beginPhase_beginPhase]

/-- After an attempt that commits, the stores are alike for the phases that are left. -/
theorem Related.advance {m' c' : Mem L V} (related : Related m₀ (p :: phases) m c)
    (prepared : Prepared runRemotely types m₀ (p :: phases))
    (spares : Spares (p.regionAt runRemotely) m.beginPhase m')
    (client : ∀ x, (c'.holders x).fresh = (c.holders x).fresh)
    (taken : ∀ x ∈ p.provides, (m'.holders x).Alike (c'.holders x))
    (left : ∀ x, x ∉ p.bound → (x ∈ p.ast.assigned → (m₀.kind x).isSome = true) →
      (c'.holders x).beginPhase = (c.holders x).beginPhase)
    (super : m'.beginPhase.super = c'.beginPhase.super) : Related m₀ phases m' c' := by
  have once := (List.pairwise_cons.mp prepared.once).1
  have provided := (List.pairwise_cons.mp prepared.provided).1
  have handed := (List.pairwise_cons.mp prepared.handed).1
  refine ⟨fun q hq x hx => ?_, fun q hq x hx => ?_, fun x => ?_, fun x => ?_, super⟩
  · by_cases hbound : x ∈ p.bound
    · have required : x ∈ q.requirements := by
        have fresh := once q hq x (RunnablePhase.bound_names hbound)
        rw [RunnablePhase.names, List.append_assoc] at hx
        exact (List.mem_append.mp hx).resolve_right fresh
      exact (taken x (provided q hq x hbound required)).beginPhase
    · have remote : x ∈ p.ast.assigned → (m₀.kind x).isSome = true :=
        fun assigned => (handed q hq x assigned hx).resolve_left hbound
      rw [spares.unchanged related.fresh hbound remote, left x hbound remote]
      exact related.live q (List.mem_cons_of_mem _ hq) x hx
  · have other : x ∉ p.bound := fun hbound => once q hq x (RunnablePhase.bound_names hbound) hx
    have remote : x ∈ p.ast.assigned → (m₀.kind x).isSome = true := fun assigned =>
      (handed q hq x assigned (RunnablePhase.bound_names hx)).resolve_left other
    rw [spares.unchanged related.fresh other remote]
    exact related.unbound q (List.mem_cons_of_mem _ hq) x hx
  · rw [spares.fresh, fresh_beginPhase_holders, related.fresh]
  · rw [client, related.client]

/-- The maps at another process have all entries that were sent there. -/
theorem Spares.sent {names : List VarName} {server : Mem L V} {t : Ty L} {name : Nat} {l : L}
    {maps : List (Ty L)}
    (spares : Spares r (transfer l names types maps c c.constructed).beginPhase server)
    (aligned : ofMapLabel l types = ofMapLabel l maps) (ht : t ∈ ofMapLabel l maps)
    (none : (server.super t name).t = []) : (c.super t name).t = [] := by
  have started := spares.grown t name none
  simp only [Mem.beginPhase, transfer_super aligned, if_pos ht, TypeHolder.beginPhase, takeMap]
    at started
  split at started
  · rename_i missing
    exact List.isEmpty_iff.mp missing
  · exact started

variable (host backend rightFirst n sh)

/-- An attempt at a phase that runs in the client's store. -/
theorem Related.locally (related : Related m₀ (p :: phases) m c)
    (prepared : Prepared runRemotely types m₀ (p :: phases))
    (here : runRemotely p.label = false) :
    (attemptLocally host backend rightFirst n types p m sh).1 =
        (attemptLocally host backend rightFirst n types p c sh).1 ∧
      Related m₀ phases (attemptLocally host backend rightFirst n types p m sh).2.1
        (attemptLocally host backend rightFirst n types p c sh).2.1 ∧
      (attemptLocally host backend rightFirst n types p m sh).2.2 =
        (attemptLocally host backend rightFirst n types p c sh).2.2 := by
  have hp : p ∈ p :: phases := List.mem_cons_self
  have within := prepared.within p hp
  have start := related.start hp prepared
  obtain ⟨result, after, shared⟩ := attempt_matches host backend rightFirst n sh within rfl start
  have kinds : ∀ x, (c.beginPhase.holders x).fresh = (m₀.holders x).fresh := fun x => by
    rw [fresh_beginPhase_holders, related.client]
  have spares := attempt_spares host backend rightFirst n sh within start.mapped
  have spares' := attempt_spares host backend rightFirst n sh within (prepared.mappedAt hp kinds)
  refine ⟨result, related.advance prepared spares ?_ ?_ ?_ ?_, shared⟩
  · intro x
    rw [spares'.fresh, fresh_beginPhase_holders]
  · intro x hx
    exact after.holders x (RunnablePhase.bound_names (List.mem_append_left _ hx))
  · exact fun x other remote => spares'.unchanged related.client other remote
  · have everywhere : ∀ t, mapsAt runRemotely p t := fun t remote => by
      rw [here] at remote
      cases remote
    funext t name
    simp only [Mem.beginPhase, after.super t (everywhere t)]

/-- An attempt at a phase that runs elsewhere. -/
theorem Related.remotely (related : Related m₀ (p :: phases) m c)
    (prepared : Prepared runRemotely types m₀ (p :: phases))
    (remote : runRemotely p.label = true) :
    (attemptLocally host backend rightFirst n types p m sh).1 =
        (attemptRemotely host backend rightFirst n types p c sh).1 ∧
      Related m₀ phases (attemptLocally host backend rightFirst n types p m sh).2.1
        (attemptRemotely host backend rightFirst n types p c sh).2.1 ∧
      (attemptLocally host backend rightFirst n types p m sh).2.2 =
        (attemptRemotely host backend rightFirst n types p c sh).2.2 := by
  have hp : p ∈ p :: phases := List.mem_cons_self
  have within := prepared.within p hp
  have aligned := prepared.aligned p hp remote
  have start := related.startRemotely hp prepared remote
  have stored := prepared.stored hp remote
  obtain ⟨result, after, shared⟩ :=
    attempt_matches host backend rightFirst n sh within stored start
  let server := transfer p.label p.requirements types p.maps c c.constructed
  have constructed : ∀ x, (server.holders x).fresh = (c.holders x).fresh := by
    intro x
    rw [transfer_holders aligned]
    split
    · exact Holder.fresh_delivered _
    · exact Holder.fresh_fresh _
  have kinds : ∀ x, (server.beginPhase.holders x).fresh = (m₀.holders x).fresh := fun x => by
    rw [fresh_beginPhase_holders, constructed, related.client]
  have spares := attempt_spares host backend rightFirst n sh within start.mapped
  have spares' := attempt_spares host backend rightFirst n sh (stored ▸ within)
    (prepared.mappedAt hp kinds)
  refine ⟨result, related.advance prepared spares ?_ ?_ ?_ ?_, shared⟩
  · intro x
    simp only [attemptRemotely, transfer_holders aligned.symm]
    split
    · rw [Holder.fresh_delivered, spares'.fresh, fresh_beginPhase_holders, constructed]
    · rfl
  · intro x hx
    simp only [attemptRemotely, transfer_holders aligned.symm, hx, if_true]
    exact (after.holders x (RunnablePhase.bound_names (List.mem_append_left _ hx))).trans
      (Holder.alike_delivered _)
  · intro x other _
    have unprovided : x ∉ p.provides := fun hx => other (List.mem_append_left _ hx)
    simp only [attemptRemotely, transfer_holders aligned.symm, unprovided, if_false]
  · funext t name
    simp only [Mem.beginPhase, attemptRemotely, transfer_super aligned.symm, aligned]
    split
    · rename_i sent
      rw [takeMap_beginPhase (spares'.sent aligned sent), after.super t fun _ => sent]
    · rename_i unsent
      rw [spares.super t (fun sent => unsent (sent remote)) name]
      have same := congrFun (congrFun related.super t) name
      simpa [Mem.beginPhase, TypeHolder.beginPhase] using same

/-- An attempt at the next phase, wherever it runs. -/
theorem Related.attempt (related : Related m₀ (p :: phases) m c)
    (prepared : Prepared runRemotely types m₀ (p :: phases)) {there : Except (Signal V F) Unit × Mem L V × Sh}
    (ran : there = if runRemotely p.label = true then
        attemptRemotely host backend rightFirst n types p c sh
      else attemptLocally host backend rightFirst n types p c sh) :
    (attemptLocally host backend rightFirst n types p m sh).1 = there.1 ∧
      Related m₀ phases (attemptLocally host backend rightFirst n types p m sh).2.1 there.2.1 ∧
      (attemptLocally host backend rightFirst n types p m sh).2.2 = there.2.2 := by
  subst ran
  by_cases remote : runRemotely p.label = true
  · rw [if_pos remote]
    exact related.remotely host backend rightFirst n sh prepared remote
  · rw [if_neg remote]
    exact related.locally host backend rightFirst n sh prepared (Bool.not_eq_true _ ▸ remote)

omit [Inhabited V] in
theorem Prepared.tail (prepared : Prepared runRemotely types m₀ (p :: phases)) :
    Prepared runRemotely types m₀ phases where
  within q hq := prepared.within q (List.mem_cons_of_mem p hq)
  refreshed q hq := prepared.refreshed q (List.mem_cons_of_mem p hq)
  mapped q hq := prepared.mapped q (List.mem_cons_of_mem p hq)
  aligned q hq := prepared.aligned q (List.mem_cons_of_mem p hq)
  once := (List.pairwise_cons.mp prepared.once).2
  provided := (List.pairwise_cons.mp prepared.provided).2
  handed := (List.pairwise_cons.mp prepared.handed).2
  unbound q hq := prepared.unbound q (List.mem_cons_of_mem p hq)

variable {host backend rightFirst n} {serialization : F → Bool} {canAbort : L → Bool}

theorem Related.dispatch (attempts : List (Sh × Option F)) (related : Related m₀ phases m c)
    (prepared : Prepared runRemotely types m₀ phases) :
    dispatchToRunner host backend rightFirst n types serialization canAbort (fun _ => false)
        attempts phases m =
      dispatchToRunner host backend rightFirst n types serialization canAbort runRemotely
        attempts phases c := by
  induction attempts generalizing phases m c with
  | nil => cases phases <;> rfl
  | cons attempt attempts ih =>
      obtain ⟨sh, commit⟩ := attempt
      cases phases with
      | nil => rfl
      | cons p phases =>
          simp only [dispatchToRunner, Bool.false_eq_true, if_false]
          generalize ran : (if runRemotely p.label = true then
            attemptRemotely host backend rightFirst n types p c sh
            else attemptLocally host backend rightFirst n types p c sh) = there
          obtain ⟨result, advanced, shared⟩ :=
            related.attempt host backend rightFirst n sh prepared ran.symm
          rw [result, shared, ih related prepared, ih advanced prepared.tail]

end Refinement

section Results

variable {L V F Sh : Type} [Inhabited V] [DecidableEq L] [Bot L]

theorem Prepared.related {runRemotely : L → Bool} {types : List (Ty L)}
    {phases : List (RunnablePhase L)} {m : Mem L V} (prepared : Prepared runRemotely types m phases) :
    Related m phases m m := by
  refine ⟨fun p hp x hx => .refl _, fun p hp x hx => ?_, fun x => rfl, fun x => rfl, rfl⟩
  rw [prepared.unbound p hp x hx, Holder.beginPhase_fresh, Holder.fresh_fresh]

end Results

section Interp

variable {L V E K W : Type} [Inhabited V] [DecidableEq L] (host : Host V E)
  (pointers : Pointers V) (store : DataStore V E K W) (rightFirst : List Expr → Bool) (n : Nat)

/-- The failures that `common_interp` catches. -/
def Fault.isSerialization : Fault E → Bool
  | .serializationFailure => true
  | _ => false

/-- What the commit of an attempt throws. -/
def commitFault (after : Shared V K W) : Option (Fault E) :=
  match (store.commit after.world).1 with
  | .ok _ => none
  | .error e => some (.pqxx e)

/-- What follows an attempt against a data store. -/
theorem commonInterp_verdict (maps : List (Ty L)) (p : RunnablePhase L) (canAbort : Bool)
    (tries : Nat) (s : Mem L V) (sh : Shared V K W) :
    let phase : PhaseProgram L := ⟨p.ast.forStore maps, p.returnsVoid, canAbort⟩
    let (result, clone, after) :=
      attemptLocally host.throwing (fun _ => store.backend pointers) rightFirst n maps p s
        { sh with events := [] }
    match verdict Fault.isSerialization canAbort p result (commitFault store after) with
    | .committed => (commonInterp host pointers store rightFirst n phase (tries + 1) s sh).2.1 = clone
    | .retried => ∃ after', commonInterp host pointers store rightFirst n phase (tries + 1) s sh =
        commonInterp host pointers store rightFirst n phase tries s after'
    | .thrown => (commonInterp host pointers store rightFirst n phase (tries + 1) s sh).2.1 = s := by
  dsimp only [attemptLocally]
  rcases hrun : ExceptT.run
    (exec host.throwing (store.backend pointers) rightFirst n (p.ast.forStore maps))
    (s.beginPhase, { sh with events := [] }) with ⟨result, clone, after⟩
  have body : runBody host pointers store rightFirst n
    ⟨p.ast.forStore maps, p.returnsVoid, canAbort⟩ s sh = (result, clone, after) := hrun
  simp only [commonInterp, commonInterpLoop, body]
  rcases hcommit : store.commit after.world with ⟨e | _, w⟩
  · rcases result with (v | f | _) | _
    · simp [verdict, commitFault, commitPhase, hcommit, Fault.isSerialization]
    · cases f <;> cases canAbort <;> simp [verdict, Fault.isSerialization]
    · simp [verdict]
    · cases hvoid : p.returnsVoid <;>
        simp [verdict, commitFault, commitPhase, hcommit, hvoid, Fault.isSerialization]
  · rcases result with (v | f | _) | _
    · simp [verdict, commitFault, commitPhase, hcommit]
    · cases f <;> cases canAbort <;> simp [verdict, Fault.isSerialization]
    · simp [verdict]
    · cases hvoid : p.returnsVoid <;>
        simp [verdict, commitFault, commitPhase, hcommit, hvoid]

end Interp

section Deposits

/-- A client, and the store that its phases may run at. -/
inductive Place
  | client
  | server
  deriving DecidableEq

instance : Bot Place := ⟨.client⟩

/-- A handle to an account in a store of its own. -/
def account : Ty Place := .handle .server .int []

/-- `var amount = 1` at the client, and `*h = amount` at the store of `h`. -/
def deposit : List (RunnablePhase Place) :=
  [{ ast := .letIn (.ident ['a']) (.constant 1) .nil
     label := .client
     returnsVoid := true
     requirements := []
     provides := [.ident ['a']]
     owned := []
     maps := [account] },
   { ast := .letRemote (.ident ['o']) (.varReference (.ident ['h']))
       (.assignVar (.ident ['o']) (.varReference (.ident ['a'])))
     label := .server
     returnsVoid := true
     requirements := [.ident ['h'], .ident ['a']]
     provides := []
     owned := [.ident ['o']]
     maps := [account] }]

/-- A store with the handle `h` bound. -/
def depositor : Mem Place Int where
  holders x :=
    if x = .ident ['h'] then .value (some 0)
    else if x = .ident ['o'] then .remote account [] (-1)
    else .value none
  super _ _ := .empty

theorem deposit_prepared : Prepared (· = .server) [account] depositor deposit := by
  refine ⟨?_, ?_, ?_, ?_, ?_, ?_, ?_, ?_⟩
  · simp [deposit, Stmt.forStore, Stmt.Within, Region.Reads, Expr.names, RunnablePhase.region,
      RunnablePhase.names, RunnablePhase.bound, Stmt.assigned, Stmt.reads]
  · simp [deposit, Stmt.refreshed]
  · intro p hp x _ _ t kind
    obtain rfl : account = t := by
      simp only [Mem.kind, depositor] at kind
      split at kind
      · cases kind
      · split at kind
        · exact Option.some.inj kind
        · cases kind
    revert p
    simp [deposit, mapsAt, ofMapLabel, account, Ty.label]
  · simp [deposit, account]
  · simp [deposit, RunnablePhase.names, RunnablePhase.bound]
  · simp [deposit, RunnablePhase.bound]
  · simp [deposit, Stmt.assigned]
  · simp [deposit, RunnablePhase.bound, depositor, Holder.fresh]

end Deposits

end MixT.Phase
