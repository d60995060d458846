import MixT.Phase.Keeps

/-! # Retrying a phase

An attempt at a phase runs on a clone of the transaction's store, which is taken over when
the commit went through. The lists that list stubs point to and the cached objects behind
handles are not part of the clone. -/

namespace MixT.Phase

open Library Eff

section Stores

variable {V E K W α : Type}

/-- An error of the database, as its client library reports it. -/
inductive StoreError (E : Type)
  | serialize
  | other (e : E)

/-- What ends an attempt. -/
inductive Fault (E : Type)
  | serializationFailure
  | pqxx (e : StoreError E)
  | thrown (e : E)
  | noObject
  | noReturn

/-- `default_sqltransaction_catch`. -/
def Fault.ofStore : StoreError E → Fault E
  | .serialize => .serializationFailure
  | .other e => .pqxx (.other e)

/-- Something that a clone shares changes: a list, or a cached object. -/
inductive Event (K : Type)
  | list (cell : Nat)
  | object (o : Nat) (old new : K)

/-- What attempts share: lists (null until the first `push_back`), the cached objects, and
the database. The events are those of the attempt that runs. -/
structure Shared (V K W : Type) where
  lists : List (Option (List V))
  objects : List K
  world : W
  events : List (Event K)

/-- A data store: what its calls make of a cached object and of the database. -/
structure DataStore (V E K W : Type) where
  load : K → W → Except (StoreError E) V × K × W
  put : V → K → W → Except (StoreError E) Unit × K × W
  isValid : K → W → Except (StoreError E) V × W
  operation : OperName → List V → K → W → Except (StoreError E) V × K × W
  createNew : V → W → Except (StoreError E) K × W
  readTracking : K → W → Except (StoreError E) Unit × W
  accompanyWrite : Nat → V → W → Except (StoreError E) Unit × W
  writeTombstone : V → W → Except (StoreError E) Unit × W
  generateTombstone : W → V × W
  commit : W → Except (StoreError E) Unit × W
  abort : W → W

/-- The object behind a handle, the list behind a list stub, and values for new ones. -/
structure Pointers (V : Type) where
  object : V → Nat
  pointTo : V → Nat → V
  cell : V → Nat
  stub : Nat → V

/-- A call on the cached object behind a handle. -/
def callObject (o : Nat) (f : K → W → Except (StoreError E) α × K × W) :
    Act (Fault E) (Shared V K W) α :=
  ExceptT.mk fun sh =>
    match sh.objects[o]? with
    | none => (.error .noObject, sh)
    | some k =>
        let (r, k', w) := f k sh.world
        (r.mapError Fault.ofStore,
          { sh with
            objects := sh.objects.set o k'
            world := w
            events := .object o k k' :: sh.events })

/-- A call that leaves the cached objects alone. -/
def callStore (f : W → Except (StoreError E) α × W) : Act (Fault E) (Shared V K W) α :=
  ExceptT.mk fun sh =>
    let (r, w) := f sh.world
    (r.mapError Fault.ofStore, { sh with world := w })

/-- A new object in the database, with its cached object. -/
def createObject (pointers : Pointers V) (h : V) (f : W → Except (StoreError E) K × W) :
    Act (Fault E) (Shared V K W) V := do
  let k ← callStore f
  ExceptT.mk fun sh =>
    (.ok (pointers.pointTo h sh.objects.length), { sh with objects := sh.objects ++ [k] })

/-- `ListStub{}`. -/
def newListStub (pointers : Pointers V) : Act (Fault E) (Shared V K W) V :=
  ExceptT.mk fun sh =>
    (.ok (pointers.stub sh.lists.length), { sh with lists := sh.lists ++ [none] })

/-- The first `push_back` makes the list. -/
def ensureList (cell : Nat) : Act (Fault E) (Shared V K W) Unit :=
  ExceptT.mk fun sh =>
    match sh.lists[cell]? with
    | some none =>
        (.ok (), { sh with lists := sh.lists.set cell (some []), events := .list cell :: sh.events })
    | _ => (.ok (), sh)

def pushList (cell : Nat) (v : V) : Act (Fault E) (Shared V K W) Unit :=
  ExceptT.mk fun sh =>
    (.ok (), { sh with
      lists := sh.lists.modify cell (Option.map (· ++ [v]))
      events := .list cell :: sh.events })

/-- The backend of a phase that runs against a data store. -/
def DataStore.backend (store : DataStore V E K W) (pointers : Pointers V) :
    Backend V (Fault E) (Shared V K W) where
  get h := callObject (pointers.object h) store.load
  put h v := callObject (pointers.object h) (store.put v)
  isValid h := callObject (pointers.object h) fun k w =>
    let (r, w) := store.isValid k w
    (r, k, w)
  createNew h v := createObject pointers h (store.createNew v)
  act name h vs := callObject (pointers.object h) (store.operation name vs)
  readTracking h := callObject (pointers.object h) fun k w =>
    let (r, w) := store.readTracking k w
    (r, k, w)
  accompanyWrite name v := callStore (store.accompanyWrite name v)
  writeTombstone v := callStore (store.writeTombstone v)
  generateTombstone := callStore fun w =>
    let (v, w) := store.generateTombstone w
    (.ok v, w)
  listStub := newListStub pointers
  ensureList lst := ensureList (pointers.cell lst)
  pushBack lst v := pushList (pointers.cell lst) v

end Stores

section Interp

variable {L V E K W : Type}

/-- `phase`: its tree, whether it returns nothing, and whether its label can abort. -/
structure PhaseProgram (L : Type) where
  ast : Stmt L
  returnsVoid : Bool
  canAbort : Bool

/-- How an attempt ends. -/
inductive Ending (V E : Type)
  | committed (result : Option V)
  | threw (f : Fault E)
  | running

/-- What the caller of `common_interp` sees. -/
inductive Outcome (V E : Type)
  | returned (result : Option V)
  | threw (f : Fault E)
  | running
  | retrying

/-- The faults of the host's operators are no faults of a store. -/
def Host.throwing (host : Host V E) : Host V (Fault E) :=
  { host with binOp := fun op l r => (host.binOp op l r).mapError Fault.thrown }

variable [Inhabited V] [DecidableEq L] (host : Host V E) (pointers : Pointers V)
  (store : DataStore V E K W) (rightFirst : List Expr → Bool) (n : Nat) (phase : PhaseProgram L)

/-- `run_phase` on the clone at the start of an attempt. -/
def runBody (s : Mem L V) (sh : Shared V K W) :
    Except (Signal V (Fault E)) Unit × Mem L V × Shared V K W :=
  (exec host.throwing (store.backend pointers) rightFirst n phase.ast).run
    (s.beginPhase, { sh with events := [] })

/-- The end of an attempt that fails: its transaction is rolled back, and what it made is
gone with the clone. -/
def discard (sh : Shared V K W) (after : Shared V K W) : Shared V K W :=
  { after with
    lists := after.lists.take sh.lists.length
    objects := after.objects.take sh.objects.length
    world := store.abort after.world }

/-- `commit_phase`. -/
def commitPhase (result : Option V) (s : Mem L V) (sh : Shared V K W) (clone : Mem L V)
    (after : Shared V K W) : Ending V E × Mem L V × Shared V K W :=
  match store.commit after.world with
  | (.ok _, w) => (.committed result, clone, { after with world := w })
  | (.error e, w) => (.threw (.pqxx e), s, discard store sh { after with world := w })

/-- `common_interp_loop` and `run_phase1`. -/
def commonInterpLoop (s : Mem L V) (sh : Shared V K W) : Ending V E × Mem L V × Shared V K W :=
  match runBody host pointers store rightFirst n phase s sh with
  | (.ok _, clone, after) =>
      if phase.returnsVoid then commitPhase store none s sh clone after
      else (.threw .noReturn, s, discard store sh after)
  | (.error (.returned v), clone, after) => commitPhase store (some v) s sh clone after
  | (.error (.fault f), _, after) => (.threw f, s, discard store sh after)
  | (.error .outOfTurns, _, after) => (.running, s, after)

/-- `common_interp`, where at most so many attempts are made. -/
def commonInterp : Nat → Mem L V → Shared V K W → Outcome V E × Mem L V × Shared V K W
  | 0, s, sh => (.retrying, s, sh)
  | tries + 1, s, sh =>
      match commonInterpLoop host pointers store rightFirst n phase s sh with
      | (.committed result, clone, after) => (.returned result, clone, after)
      | (.threw .serializationFailure, s, after) =>
          if phase.canAbort then (.threw .serializationFailure, s, after)
          else commonInterp tries s after
      | (.threw f, s, after) => (.threw f, s, after)
      | (.running, s, after) => (.running, s, after)

/-- Where the attempts of `common_interp` start. -/
def attemptStarts : Nat → Mem L V → Shared V K W → List (Mem L V × Shared V K W)
  | 0, _, _ => []
  | tries + 1, s, sh =>
      (s, sh) ::
        match commonInterpLoop host pointers store rightFirst n phase s sh with
        | (.threw .serializationFailure, s, after) =>
            if phase.canAbort then [] else attemptStarts tries s after
        | _ => []

end Interp

section Kept

variable {V E K W α : Type}

/-- The event concerns nothing among the first lists and objects. -/
def Event.Spares (lists objects : Nat) : Event K → Prop
  | .list cell => lists ≤ cell
  | .object o old new => o < objects → new = old

/-- Nothing among the lists and objects of `sh` was changed. -/
def Spared (sh after : Shared V K W) : Prop :=
  ∀ event ∈ after.events, event.Spares sh.lists.length sh.objects.length

/-- What an attempt that starts from `sh` keeps. -/
structure Kept (sh after : Shared V K W) : Prop where
  lists_le : sh.lists.length ≤ after.lists.length
  objects_le : sh.objects.length ≤ after.objects.length
  same : Spared sh after → after.lists.take sh.lists.length = sh.lists ∧
    after.objects.take sh.objects.length = sh.objects

variable {sh : Shared V K W}

theorem Kept.start : Kept sh { sh with events := [] } :=
  ⟨le_rfl, le_rfl, fun _ => ⟨List.take_length, List.take_length⟩⟩

/-- The statements of a transaction map every serialization failure. -/
theorem mapError_ofStore_ne {r : Except (StoreError E) α} {f : Fault E}
    (h : r.mapError Fault.ofStore = .error f) : f ≠ .pqxx .serialize := by
  rintro rfl
  rcases r with (_ | e) | v <;> simp [Except.mapError, Fault.ofStore] at h

theorem callObject_keeps {o : Nat} {f : K → W → Except (StoreError E) α × K × W} :
    Keeps (Kept sh) (· ≠ .pqxx .serialize) (callObject o f : Act (Fault E) (Shared V K W) α) := by
  intro after kept
  unfold callObject
  cases found : after.objects[o]? with
  | none => simpa [ExceptT.run_mk, found] using kept
  | some k =>
      simp only [ExceptT.run_mk, found]
      refine ⟨⟨kept.lists_le, by simpa using kept.objects_le, fun spared => ?_⟩,
        fun e he => mapError_ofStore_ne he⟩
      have same := kept.same fun event h => spared event (List.mem_cons_of_mem _ h)
      refine ⟨same.1, ?_⟩
      obtain hlt | hle := Nat.lt_or_ge o sh.objects.length
      · obtain ⟨hlen, rfl⟩ := List.getElem?_eq_some_iff.mp found
        have unchanged := spared _ (List.mem_cons_self ..) hlt
        simpa [unchanged] using same.2
      · simpa [List.take_set_of_le hle] using same.2

theorem callStore_keeps {f : W → Except (StoreError E) α × W} :
    Keeps (Kept sh) (· ≠ .pqxx .serialize) (callStore f : Act (Fault E) (Shared V K W) α) := by
  intro after kept
  exact ⟨⟨kept.lists_le, kept.objects_le, kept.same⟩, fun e he => mapError_ofStore_ne he⟩

theorem createObject_keeps {pointers : Pointers V} {h : V} {f : W → Except (StoreError E) K × W} :
    Keeps (Kept sh) (· ≠ .pqxx .serialize)
      (createObject pointers h f : Act (Fault E) (Shared V K W) V) := by
  refine callStore_keeps.bind fun k after kept => ⟨⟨kept.lists_le, ?_, fun spared => ?_⟩, ?_⟩
  · simpa using kept.objects_le.trans (Nat.le_succ _)
  · have same := kept.same spared
    exact ⟨same.1, (List.take_append_of_le_length kept.objects_le).trans same.2⟩
  · simp [ExceptT.run_mk]

theorem newListStub_keeps {pointers : Pointers V} :
    Keeps (Kept sh) (· ≠ .pqxx .serialize)
      (newListStub pointers : Act (Fault E) (Shared V K W) V) := by
  refine fun after kept => ⟨⟨?_, kept.objects_le, fun spared => ?_⟩, ?_⟩
  · simpa [newListStub, ExceptT.run_mk] using kept.lists_le.trans (Nat.le_succ _)
  · have same := kept.same spared
    exact ⟨(List.take_append_of_le_length kept.lists_le).trans same.1, same.2⟩
  · simp [newListStub, ExceptT.run_mk]

theorem ensureList_keeps {cell : Nat} :
    Keeps (Kept sh) (· ≠ .pqxx .serialize)
      (ensureList cell : Act (Fault E) (Shared V K W) Unit) := by
  intro after kept
  unfold ensureList
  simp only [ExceptT.run_mk]
  split
  · refine ⟨⟨by simpa using kept.lists_le, kept.objects_le, fun spared => ?_⟩, by simp⟩
    have same := kept.same fun event h => spared event (List.mem_cons_of_mem _ h)
    have newer : sh.lists.length ≤ cell := spared _ (List.mem_cons_self ..)
    exact ⟨(List.take_set_of_le newer).trans same.1, same.2⟩
  · exact ⟨kept, by simp⟩

theorem pushList_keeps {cell : Nat} {v : V} :
    Keeps (Kept sh) (· ≠ .pqxx .serialize)
      (pushList cell v : Act (Fault E) (Shared V K W) Unit) := by
  refine fun after kept => ⟨⟨?_, kept.objects_le, fun spared => ?_⟩, ?_⟩
  · simpa [pushList, ExceptT.run_mk] using kept.lists_le
  · have same := kept.same fun event h => spared event (List.mem_cons_of_mem _ h)
    have newer : sh.lists.length ≤ cell := spared _ (List.mem_cons_self ..)
    refine ⟨?_, same.2⟩
    rw [pushList, ExceptT.run_mk]
    simp only [List.take_modify, same.1]
    exact List.modify_eq_self newer
  · simp [pushList, ExceptT.run_mk]

theorem backend_keeps (store : DataStore V E K W) (pointers : Pointers V) :
    (store.backend pointers).Keeps (Kept sh) (· ≠ .pqxx .serialize) where
  get _ := callObject_keeps
  put _ _ := callObject_keeps
  isValid _ := callObject_keeps
  createNew _ _ := createObject_keeps
  act _ _ _ := callObject_keeps
  readTracking _ := callObject_keeps
  accompanyWrite _ _ := callStore_keeps
  writeTombstone _ := callStore_keeps
  generateTombstone := callStore_keeps
  listStub := newListStub_keeps
  ensureList _ := ensureList_keeps
  pushBack _ _ := pushList_keeps

end Kept

section Alone

variable {L V E K W : Type} [Inhabited V] [DecidableEq L] (host : Host V E)
  (pointers : Pointers V) (store : DataStore V E K W) (rightFirst : List Expr → Bool) (n : Nat)
  (phase : PhaseProgram L)

/-- The body of the attempt ends, and then the commit reports a serialization failure. -/
def CommitReports (s : Mem L V) (sh : Shared V K W) : Prop :=
  ∃ clone after,
    (runBody host pointers store rightFirst n phase s sh = (.ok (), clone, after) ∧
        phase.returnsVoid = true ∨
      ∃ v, runBody host pointers store rightFirst n phase s sh =
        (.error (.returned v), clone, after)) ∧
    (store.commit after.world).1 = .error .serialize

/-- A statement of the attempt reports a serialization failure, after the attempt changed
an older list or an older cached object. -/
def Spoils (s : Mem L V) (sh : Shared V K W) : Prop :=
  ∃ clone after, runBody host pointers store rightFirst n phase s sh =
    (.error (.fault .serializationFailure), clone, after) ∧ ¬ Spared sh after

/-- Every attempt starts as the first one did, the caller sees a serialization failure only
where the label can abort, and the end is that of the last attempt on its own. -/
structure RunsAlone (tries : Nat) (s : Mem L V) (sh : Shared V K W) : Prop where
  starts : ∀ start ∈ attemptStarts host pointers store rightFirst n phase tries s sh,
    start.1 = s ∧ start.2.lists = sh.lists ∧ start.2.objects = sh.objects
  mapped : (commonInterp host pointers store rightFirst n phase tries s sh).1 ≠
    .threw (.pqxx .serialize)
  aborts : (commonInterp host pointers store rightFirst n phase tries s sh).1 =
    .threw .serializationFailure → phase.canAbort = true
  alone : (commonInterp host pointers store rightFirst n phase tries s sh).1 ≠ .retrying →
    ∃ w, commonInterp host pointers store rightFirst n phase tries s sh =
      commonInterp host pointers store rightFirst n phase 1 s { sh with world := w }

variable {host pointers store rightFirst n phase} {s : Mem L V} {sh : Shared V K W}

omit [Inhabited V] in
theorem throwing_fails : host.throwing.Fails (· ≠ .pqxx .serialize) := by
  rintro op l r f h rfl
  cases hr : host.binOp op l r <;> simp [Host.throwing, hr, Except.mapError] at h

theorem runBody_keeps :
    Kept sh (runBody host pointers store rightFirst n phase s sh).2.2 ∧
      ∀ e, (runBody host pointers store rightFirst n phase s sh).1 = .error e →
        e.Satisfies (· ≠ .pqxx .serialize) :=
  exec_keeps throwing_fails (backend_keeps store pointers) n phase.ast
    (s.beginPhase, { sh with events := [] }) Kept.start

variable (store s sh) in
omit [Inhabited V] [DecidableEq L] in
/-- A commit goes through or throws what the database reports. -/
theorem commitPhase_cases (result : Option V) (clone : Mem L V) (ended : Shared V K W) :
    (∃ w, commitPhase store result s sh clone ended =
      (.committed result, clone, { ended with world := w })) ∨
    ∃ e after, (store.commit ended.world).1 = .error e ∧
      commitPhase store result s sh clone ended = (.threw (.pqxx e), s, after) := by
  unfold commitPhase
  rcases commit : store.commit ended.world with ⟨e | u, w⟩
  · exact Or.inr ⟨e, _, rfl, rfl⟩
  · exact Or.inl ⟨w, rfl⟩

/-- An attempt that gives way to another one, and spares what they share, hands it over as
it was. -/
theorem commonInterpLoop_retried {s' : Mem L V} {after : Shared V K W}
    (h : commonInterpLoop host pointers store rightFirst n phase s sh =
      (.threw .serializationFailure, s', after))
    (spares : ¬ Spoils host pointers store rightFirst n phase s sh) :
    s' = s ∧ after.lists = sh.lists ∧ after.objects = sh.objects := by
  have kept : Kept sh (runBody host pointers store rightFirst n phase s sh).2.2 :=
    runBody_keeps.1
  have commits : ∀ result clone ended,
      commitPhase store result s sh clone ended ≠ (.threw .serializationFailure, s', after) := by
    intro result clone ended committed
    obtain ⟨w, eq⟩ | ⟨e, w, -, eq⟩ := commitPhase_cases store s sh result clone ended <;>
      simp [eq] at committed
  rcases body : runBody host pointers store rightFirst n phase s sh with
    ⟨(v | f | _) | u, clone, ended⟩ <;>
    simp only [commonInterpLoop, body] at h
  case error.returned => exact absurd h (commits _ _ _)
  case error.fault =>
    simp only [Prod.mk.injEq, Ending.threw.injEq] at h
    obtain ⟨rfl, rfl, rfl⟩ := h
    rw [body] at kept
    have spared : Spared sh ended := by
      by_contra spoilt
      exact spares ⟨clone, ended, body, spoilt⟩
    exact ⟨rfl, kept.same spared⟩
  case error.outOfTurns => simp at h
  case ok =>
    split at h
    · exact absurd h (commits _ _ _)
    · simp at h

/-- Where no commit reports a serialization failure, none reaches the caller as the
database reports it. -/
theorem commonInterpLoop_mapped
    (silent : ¬ CommitReports host pointers store rightFirst n phase s sh) :
    (commonInterpLoop host pointers store rightFirst n phase s sh).1 ≠
      .threw (.pqxx .serialize) := by
  have mapped : ∀ e, (runBody host pointers store rightFirst n phase s sh).1 = .error e →
      e.Satisfies (· ≠ .pqxx .serialize) := runBody_keeps.2
  have commits : ∀ result clone ended,
      (commitPhase store result s sh clone ended).1 = .threw (.pqxx .serialize) →
        (store.commit ended.world).1 = .error .serialize := by
    intro result clone ended committed
    obtain ⟨w, eq⟩ | ⟨e, w, reported, eq⟩ := commitPhase_cases store s sh result clone ended
    · simp [eq] at committed
    · simp only [eq, Ending.threw.injEq, Fault.pqxx.injEq] at committed
      exact committed ▸ reported
  intro h
  rcases body : runBody host pointers store rightFirst n phase s sh with
    ⟨(v | f | _) | u, clone, ended⟩ <;>
    simp only [commonInterpLoop, body] at h
  case error.returned =>
    exact silent ⟨clone, ended, Or.inr ⟨v, body⟩, commits _ _ _ h⟩
  case error.fault =>
    obtain rfl : f = .pqxx .serialize := by simpa using h
    exact mapped (.fault (.pqxx .serialize)) (by rw [body]) rfl
  case error.outOfTurns => simp at h
  case ok =>
    split at h
    · rename_i void
      exact silent ⟨clone, ended, Or.inl ⟨body, void⟩, commits _ _ _ h⟩
    · simp at h

/-- The events of an earlier attempt do not matter. -/
theorem commonInterpLoop_congr {sh' : Shared V K W} (lists : sh.lists = sh'.lists)
    (objects : sh.objects = sh'.objects) (world : sh.world = sh'.world) :
    commonInterpLoop host pointers store rightFirst n phase s sh =
      commonInterpLoop host pointers store rightFirst n phase s sh' := by
  have body : runBody host pointers store rightFirst n phase s sh =
      runBody host pointers store rightFirst n phase s sh' := by
    rw [runBody, runBody, lists, objects, world]
  simp only [commonInterpLoop, body, commitPhase, discard, lists, objects]

end Alone

section Increments

/-- A host of integers. -/
def intHost : Host Int Unit where
  ofInt := id
  ofBool b := if b then 1 else 0
  truth v := v ≠ 0
  count := Int.toNat
  binOp _ l r := .ok (l + r)
  field v _ := v
  setField _ _ v := v
  nulled := id
  name := Int.toNat

def intPointers : Pointers Int := ⟨Int.toNat, fun _ o => o, Int.toNat, fun cell => cell⟩

/-- A store of counters, each with its version as the cached object, where the world counts
the calls. The calls of the given numbers report a serialization failure. -/
def counterStore (operationFails commitFails : Nat → Bool) : DataStore Int Unit Nat Nat where
  load k w := (.ok k, k, w + 1)
  put _ k w := (.ok (), k + 1, w + 1)
  isValid _ w := (.ok 1, w + 1)
  operation _ _ k w :=
    if operationFails w then (.error .serialize, k, w + 1) else (.ok 0, k + 1, w + 1)
  createNew _ w := (.ok 0, w + 1)
  readTracking _ w := (.ok (), w)
  accompanyWrite _ _ w := (.ok (), w)
  writeTombstone _ w := (.ok (), w)
  generateTombstone w := (0, w)
  commit w := (if commitFails w then .error .serialize else .ok (), w + 1)
  abort w := w

/-- `h.increment()`. -/
def incrementOnce (canAbort : Bool) : PhaseProgram Unit where
  ast := .operation ['i', 'n', 'c', 'r', 'e', 'm', 'e', 'n', 't'] (.varReference (.ident ['h'])) []
  returnsVoid := true
  canAbort := canAbort

/-- The handle `h` of the first object. -/
def handleOnly : Mem Unit Int where
  holders _ := .value (some 0)
  super _ _ := .empty

def oneObject : Shared Int Nat Nat := ⟨[], [7], 0, []⟩

end Increments

end MixT.Phase
