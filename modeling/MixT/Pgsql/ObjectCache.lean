import Mathlib.Data.Int.ConditionallyCompleteOrder
import Mathlib.Order.ConditionallyCompleteLattice.Basic
import MixT.Pgsql.ClientClock

/-! # The cached object of a client

A `GSQLObject` keeps a buffer and the version that the buffer is thought to have. A load of
a large object compares versions first, and fetches the data only if they differ. -/

namespace MixT.Pgsql

open Library.Runs

/-- What a client sees of the stored object: its version and its data, how an update
changes them, and the version that the update returns. -/
structure Backend (S U V D : Type*) where
  version : S → V
  content : S → D
  update : S → U → Option S
  returned : S → U → V
  payload : U → D

/-- The row of a strong object. -/
structure StrongRow (D : Type*) where
  version : ℤ
  data : D

/-- `select_version_s` and `update_data_s`. -/
def strongBackend (D : Type*) : Backend (StrongRow D) D ℤ D where
  version := StrongRow.version
  content := StrongRow.data
  update row d := some ⟨row.version + 1, d⟩
  returned row _ := row.version + 1
  payload d := d

/-- `select_version_c` and `update_data_c`: the readable row is read, and the row of the
writer is written and returned. -/
def causalBackend (ι D : Type*) [Fintype ι] [Inhabited ι] [DecidableEq ι] [DecidableEq D] :
    Backend (Blob ι D) (Write ι D) VersionVector D where
  version b := b.readable.vc
  content b := b.readable.data
  update b w := b.update w.cntr w.row w.supplied
  returned b w := ((b.update w.cntr w.row w.supplied).map fun b => (b.rows w.row).vc).getD b.readable.vc
  payload w := w.supplied.data

/-- An open transaction: the object that it sees, whether it wrote it, and whether another
client has committed a write of it since. -/
structure OpenTransaction (S : Type*) where
  sees : S
  wrote : Bool
  overtaken : Bool

/-- A client's object and the committed object in the store. The version is `none` until
one was read. -/
structure CachedObject (S V D : Type*) where
  committed : S
  transaction : Option (OpenTransaction S)
  buffer : Option D
  size : ℕ
  vers : Option V

/-- Which query of a load fails. -/
inductive LoadFailure
  | nothing
  | firstQuery
  | secondQuery
  deriving DecidableEq

/-- What the client does with its object, with what fails, and what others commit. -/
inductive CacheAction (U : Type*)
  | begin
  | load (failure : LoadFailure)
  | put (u : U) (fails : Bool)
  | commit (fails : Bool)
  | abort
  | otherCommits (u : U)

section Step

variable {S U V D : Type*} [DecidableEq V] (backend : Backend S U V D) (size : D → ℕ)

namespace CachedObject

/-- A failed query ends the transaction. -/
def rolledBack (s : CachedObject S V D) : CachedObject S V D := { s with transaction := none }

/-- `resize_buffer` and `memcpy`. -/
def fill (s : CachedObject S V D) (d : D) : CachedObject S V D :=
  { s with buffer := some d, size := size d }

/-- `select_version_data`, and what `GSQLObject::load` does with its result. -/
def fetch (s : CachedObject S V D) (t : OpenTransaction S) : CachedObject S V D :=
  { s.fill size (backend.content t.sees) with vers := some (backend.version t.sees) }

/-- `GSQLObject::load`. -/
def load (s : CachedObject S V D) (t : OpenTransaction S) (failure : LoadFailure) :
    CachedObject S V D :=
  if maxVerCheckSize ≤ s.size then
    if failure = .firstQuery then s.rolledBack
    else if s.vers = some (backend.version t.sees) then s
    -- the version is kept before the data is there
    else if failure = .secondQuery then
      { s with vers := some (backend.version t.sees) }.rolledBack
    else s.fetch backend size t
  else if failure = .firstQuery then s.rolledBack
  else s.fetch backend size t

/-- The update of a put, where the store takes it. -/
def accepted (t : OpenTransaction S) (u : U) (fails : Bool) : Option S :=
  if fails || t.overtaken then none else backend.update t.sees u

/-- `SQLObject::put` and `GSQLObject::save`: the buffer changes before the update is sent. -/
def put (s : CachedObject S V D) (t : OpenTransaction S) (u : U) (fails : Bool) :
    CachedObject S V D :=
  match accepted backend t u fails with
  | none => (s.fill size (backend.payload u)).rolledBack
  | some seen =>
      { s.fill size (backend.payload u) with
        vers := some (backend.returned t.sees u)
        transaction := some { t with sees := seen, wrote := true } }

/-- One action. Others do not commit a write of the object over one that is open. -/
def step (s : CachedObject S V D) : CacheAction U → Option (CachedObject S V D)
  | .begin =>
      match s.transaction with
      | none => some { s with transaction := some ⟨s.committed, false, false⟩ }
      | some _ => none
  | .load failure => s.transaction.map fun t => s.load backend size t failure
  | .put u fails => s.transaction.map fun t => s.put backend size t u fails
  | .commit fails => s.transaction.map fun t =>
      if !fails && t.wrote then { s.rolledBack with committed := t.sees } else s.rolledBack
  | .abort => s.transaction.map fun _ => s.rolledBack
  | .otherCommits u =>
      if (s.transaction.map OpenTransaction.wrote).getD false then none
      else
        (backend.update s.committed u).map fun committed =>
          { s with
            committed := committed
            transaction := s.transaction.map fun t => { t with overtaken := true } }

/-- A large object whose version was not read yet. -/
def opened (committed : S) (buffer : Option D) (size : ℕ) : CachedObject S V D :=
  ⟨committed, none, buffer, size, none⟩

end CachedObject

end Step

section Faithful

variable {S U V D : Type*} [PartialOrder V] (backend : Backend S U V D) (size : D → ℕ)

namespace CachedObject

/-- Where a load finds its version stored, the buffer is there and has the stored data. -/
def Faithful (s : CachedObject S V D) : Prop :=
  ∀ t, s.transaction = some t → maxVerCheckSize ≤ s.size →
    s.vers = some (backend.version t.sees) → s.buffer = some (backend.content t.sees)

/-- The version does not fall from one stored object to the other, and it tells their data
apart. -/
def Follows (before after : S) : Prop :=
  backend.version before ≤ backend.version after ∧
    (backend.version before = backend.version after →
      backend.content before = backend.content after)

/-- Beside the stored object, the pair of the buffer `d` and the version is not ahead, and
if it is not behind either, then the data agree. -/
def Agrees (vers : Option V) (d : Option D) (stored : S) : Prop :=
  ∀ v, vers = some v → v ≤ backend.version stored ∧
    (v = backend.version stored → d = some (backend.content stored))

/-- The transaction may be rolled back: it wrote no object that a load checks. -/
def RollsBack (s : CachedObject S V D) (t : OpenTransaction S) : Prop :=
  t.wrote = true → s.size < maxVerCheckSize

/-- A failure leaves no version beside a buffer that it may be taken for. -/
def FailsSafely (s : CachedObject S V D) : CacheAction U → Prop
  | .begin => True
  | .load .nothing => True
  | .load .firstQuery => ∀ t, s.transaction = some t → s.RollsBack t
  | .load .secondQuery => ∀ t, s.transaction = some t → maxVerCheckSize ≤ s.size →
      s.vers ≠ some (backend.version t.sees) → t.wrote = false ∧
        (backend.version t.sees = backend.version s.committed →
          s.buffer = some (backend.content s.committed))
  | .put u fails => ∀ t, s.transaction = some t → accepted backend t u fails = none →
      size (backend.payload u) < maxVerCheckSize ∨
        Agrees backend s.vers (some (backend.payload u)) s.committed
  | .commit fails => fails = true → ∀ t, s.transaction = some t → s.RollsBack t
  | .abort => ∀ t, s.transaction = some t → s.RollsBack t
  | .otherCommits _ => True

/-- The store takes an update with a version of its own, and a put that it takes is what
it has then, or is small. -/
def StoresSafely (s : CachedObject S V D) : CacheAction U → Prop
  | .put u fails => ∀ t, s.transaction = some t → ∀ seen, accepted backend t u fails = some seen →
      size (backend.payload u) < maxVerCheckSize ∨
        Agrees backend (some (backend.returned t.sees u)) (some (backend.payload u)) seen
  | .otherCommits u => ∀ committed, backend.update s.committed u = some committed →
      Follows backend s.committed committed
  | _ => True

variable {backend size}

theorem Follows.refl (stored : S) : Follows backend stored stored := ⟨le_rfl, fun _ => rfl⟩

theorem Follows.trans {a b c : S} (h : Follows backend a b) (h' : Follows backend b c) :
    Follows backend a c := by
  refine ⟨h.1.trans h'.1, fun heq => ?_⟩
  have left : backend.version a = backend.version b := le_antisymm h.1 (heq ▸ h'.1)
  exact (h.2 left).trans (h'.2 (left.symm.trans heq))

theorem Agrees.follows {vers : Option V} {d : Option D} {a b : S} (h : Agrees backend vers d a)
    (follows : Follows backend a b) : Agrees backend vers d b := by
  intro v hv
  obtain ⟨hle, hdata⟩ := h v hv
  refine ⟨hle.trans follows.1, fun heq => ?_⟩
  have at_a : v = backend.version a := le_antisymm hle (heq ▸ follows.1)
  rw [hdata at_a, follows.2 (at_a.symm.trans heq)]

/-- The buffer and the version agree with what the next load sees, and with what is there
after a transaction that wrote nothing. -/
structure Synced (backend : Backend S U V D) (s : CachedObject S V D) : Prop where
  idle : s.transaction = none →
    s.size < maxVerCheckSize ∨ Agrees backend s.vers s.buffer s.committed
  sees : ∀ t, s.transaction = some t →
    s.size < maxVerCheckSize ∨ Agrees backend s.vers s.buffer t.sees
  readOnly : ∀ t, s.transaction = some t → t.wrote = false → Follows backend t.sees s.committed

theorem Synced.faithful {s : CachedObject S V D} (synced : s.Synced backend) :
    s.Faithful backend := by
  intro t ht large hv
  obtain small | agrees := synced.sees t ht
  · omega
  · exact (agrees _ hv).2 rfl

theorem opened_synced (committed : S) (buffer : Option D) (n : ℕ) :
    (opened committed buffer n : CachedObject S V D).Synced backend where
  idle _ := Or.inr fun v hv => by simp [opened] at hv
  sees t ht := by simp [opened] at ht
  readOnly t ht := by simp [opened] at ht

/-- Without a transaction only the committed object matters. -/
theorem synced_of_idle {s : CachedObject S V D} (h : s.transaction = none)
    (agrees : s.size < maxVerCheckSize ∨ Agrees backend s.vers s.buffer s.committed) :
    s.Synced backend where
  idle _ := agrees
  sees t ht := by simp [h] at ht
  readOnly t ht := by simp [h] at ht

/-- The object stays in step when a transaction that may be rolled back is. -/
theorem Synced.rolledBack {s : CachedObject S V D} {t : OpenTransaction S}
    (synced : s.Synced backend) (ht : s.transaction = some t) (safe : s.RollsBack t) :
    s.rolledBack.Synced backend := by
  refine synced_of_idle rfl ?_
  cases hw : t.wrote with
  | true => exact Or.inl (safe hw)
  | false => exact (synced.sees t ht).imp_right fun h => h.follows (synced.readOnly t ht hw)

theorem Synced.fetch {s : CachedObject S V D} {t : OpenTransaction S}
    (synced : s.Synced backend) (ht : s.transaction = some t) :
    (s.fetch backend size t).Synced backend where
  idle h := by simp [CachedObject.fetch, fill, ht] at h
  sees u hu := by
    obtain rfl : t = u := by simpa [CachedObject.fetch, fill, ht] using hu
    refine Or.inr fun v hv => ?_
    obtain rfl : backend.version t.sees = v := by simpa [CachedObject.fetch] using hv
    exact ⟨le_rfl, fun _ => rfl⟩
  readOnly u hu := synced.readOnly u hu

variable [DecidableEq V]

theorem Synced.load {s : CachedObject S V D} {t : OpenTransaction S} {failure : LoadFailure}
    (synced : s.Synced backend) (ht : s.transaction = some t)
    (safe : s.FailsSafely backend size (.load failure)) :
    (s.load backend size t failure).Synced backend := by
  cases failure with
  | nothing =>
      simp only [CachedObject.load, reduceCtorEq, if_false]
      split
      · split
        · exact synced
        · exact synced.fetch ht
      · exact synced.fetch ht
  | firstQuery =>
      simp only [CachedObject.load, if_true, ite_self]
      exact synced.rolledBack ht (safe t ht)
  | secondQuery =>
      simp only [CachedObject.load, reduceCtorEq, if_false, if_true]
      split
      · rename_i large
        split
        · exact synced
        · rename_i hv
          obtain ⟨hwrote, hdata⟩ := safe t ht large hv
          refine synced_of_idle rfl (Or.inr fun v hv => ?_)
          obtain rfl : backend.version t.sees = v := by simpa [CachedObject.rolledBack] using hv
          exact ⟨(synced.readOnly t ht hwrote).1, hdata⟩
      · exact synced.fetch ht

omit [DecidableEq V] in
theorem Synced.put {s : CachedObject S V D} {t : OpenTransaction S} {u : U} {fails : Bool}
    (ht : s.transaction = some t)
    (safe : s.FailsSafely backend size (.put u fails))
    (stores : s.StoresSafely backend size (.put u fails)) :
    (s.put backend size t u fails).Synced backend := by
  unfold CachedObject.put
  split
  · rename_i refused
    exact synced_of_idle rfl (safe t ht refused)
  · rename_i seen taken
    have stored := stores t ht seen taken
    exact {
      idle := by simp
      sees := by
        intro t' ht'
        obtain rfl := Option.some.inj ht'
        exact stored
      readOnly := by
        intro t' ht' hwrote
        obtain rfl := Option.some.inj ht'
        simp at hwrote }

/-- An action that fails and stores safely keeps the object in step. -/
theorem step_synced {s s' : CachedObject S V D} {a : CacheAction U}
    (h : s.step backend size a = some s') (safe : s.FailsSafely backend size a)
    (stores : s.StoresSafely backend size a) (synced : s.Synced backend) :
    s'.Synced backend := by
  cases a with
  | begin =>
      simp only [step] at h
      split at h
      · rename_i idle
        obtain rfl := Option.some.inj h
        exact {
          idle := by simp
          sees := by
            intro t ht
            obtain rfl := Option.some.inj ht
            exact synced.idle idle
          readOnly := by
            intro t ht _
            obtain rfl := Option.some.inj ht
            exact Follows.refl _ }
      · simp at h
  | load failure =>
      obtain ⟨t, ht, rfl⟩ := Option.map_eq_some_iff.mp h
      exact synced.load ht safe
  | put u fails =>
      obtain ⟨t, ht, rfl⟩ := Option.map_eq_some_iff.mp h
      exact Synced.put ht safe stores
  | commit fails =>
      obtain ⟨t, ht, rfl⟩ := Option.map_eq_some_iff.mp h
      split
      · exact synced_of_idle rfl (synced.sees t ht)
      · rename_i nothingKept
        refine synced.rolledBack ht fun hwrote => ?_
        have failed : fails = true := by simpa [hwrote] using nothingKept
        exact safe failed t ht hwrote
  | abort =>
      obtain ⟨t, ht, rfl⟩ := Option.map_eq_some_iff.mp h
      exact synced.rolledBack ht (safe t ht)
  | otherCommits u =>
      simp only [step] at h
      split at h
      · simp at h
      · rename_i unwritten
        obtain ⟨committed, hc, rfl⟩ := Option.map_eq_some_iff.mp h
        have follows := stores committed hc
        exact {
          idle := by
            intro hidle
            have hidle : s.transaction = none := by simpa using hidle
            exact (synced.idle hidle).imp_right fun h => h.follows follows
          sees := by
            intro t ht
            obtain ⟨t', ht', rfl⟩ := Option.map_eq_some_iff.mp ht
            exact synced.sees t' ht'
          readOnly := by
            intro t ht hwrote
            obtain ⟨t', ht', rfl⟩ := Option.map_eq_some_iff.mp ht
            exact (synced.readOnly t' ht' hwrote).trans follows }

/-- In a run whose actions fail and store safely, every load is served faithfully. -/
theorem visits_faithful (committed : S) (buffer : Option D) (n : ℕ) (acts : List (CacheAction U))
    (safe : ∀ s a s', Takes (step backend size) (opened committed buffer n) acts s a s' →
      s.FailsSafely backend size a ∧ s.StoresSafely backend size a)
    {s : CachedObject S V D} (h : Visits (step backend size) (opened committed buffer n) acts s) :
    s.Faithful backend := by
  refine Synced.faithful (visits_induction (Synced backend) (opened_synced _ _ _) ?_ h)
  intro t a t' htakes ht
  obtain ⟨fails, stores⟩ := safe t a t' htakes
  obtain ⟨-, -, -, -, hstep⟩ := htakes
  exact step_synced hstep fails stores ht

end CachedObject

end Faithful

section Levels

variable {ι D : Type*} [Fintype ι] [Inhabited ι] [DecidableEq ι] [DecidableEq D] {size : D → ℕ}

namespace CachedObject

omit [DecidableEq D] in
/-- A strong object has a new version after each update. -/
theorem strong_storesSafely (s : CachedObject (StrongRow D) ℤ D) (a : CacheAction D) :
    s.StoresSafely (strongBackend D) size a := by
  cases a with
  | put d fails =>
      intro t _ seen taken
      unfold accepted at taken
      split at taken
      · simp at taken
      · obtain rfl := Option.some.inj taken
        refine Or.inr fun v hv => ?_
        obtain rfl := Option.some.inj hv
        exact ⟨le_rfl, fun _ => rfl⟩
  | otherCommits d =>
      intro committed hc
      obtain rfl := Option.some.inj hc
      refine ⟨(lt_add_one s.committed.version).le, fun heq => ?_⟩
      exact absurd heq (lt_add_one s.committed.version).ne
  | _ => trivial

/-- An update that runs the trigger keeps the readable vector, and raises it where it
changes the readable data. -/
def KeepsReadable (b : Blob ι D) (w : Write ι D) : Prop :=
  (b.rows w.row).data ≠ w.supplied.data → ∀ new, assignCounter w.cntr w.supplied = some new →
    (∀ c, b.readable.vc c ≤ max (maxVc b.rows c) (new.vc c)) ∧
    (new.data ≠ b.readable.data → ∃ c, b.readable.vc c < max (maxVc b.rows c) (new.vc c))

/-- The client's own puts change the data of its row, or are small. The updates of others
keep the readable vector. -/
def TriggersSafely (size : D → ℕ) (s : CachedObject (Blob ι D) VersionVector D) :
    CacheAction (Write ι D) → Prop
  | .put w _ => ∀ t, s.transaction = some t →
      size w.supplied.data < maxVerCheckSize ∨ (t.sees.rows w.row).data ≠ w.supplied.data
  | .otherCommits w => KeepsReadable s.committed w
  | _ => True

theorem causal_storesSafely {s : CachedObject (Blob ι D) VersionVector D}
    {a : CacheAction (Write ι D)} (safe : s.TriggersSafely size a) :
    s.StoresSafely (causalBackend ι D) size a := by
  cases a with
  | put w fails =>
      intro t ht seen taken
      refine (safe t ht).imp_right fun changes v hv => ?_
      unfold accepted at taken
      split at taken
      · simp at taken
      · obtain rfl := Option.some.inj hv
        simp only [causalBackend] at taken ⊢
        rw [taken]
        simp only [Blob.update, changes, if_false, blobstoreNumbering, Option.map_map,
          Option.map_eq_some_iff] at taken
        obtain ⟨new, hnew, rfl⟩ := taken
        obtain ⟨x, c, hx⟩ : ∃ x c, new = { w.supplied with vc := Function.update x c w.cntr } := by
          unfold assignCounter at hnew
          split_ifs at hnew <;> exact ⟨_, _, (Option.some.inj hnew).symm⟩
        refine ⟨fun c => by simp, fun _ => by simp [hx]⟩
  | otherCommits w =>
      intro committed hc
      simp only [causalBackend, Blob.update] at hc
      split at hc
      · obtain rfl := Option.some.inj hc
        exact Follows.refl _
      · rename_i changes
        simp only [blobstoreNumbering, Option.map_map, Option.map_eq_some_iff] at hc
        obtain ⟨new, hnew, rfl⟩ := hc
        obtain ⟨grows, differs⟩ := safe changes new hnew
        refine ⟨grows, fun heq => ?_⟩
        by_contra hdata
        obtain ⟨c, hlt⟩ := differs (Ne.symm hdata)
        exact hlt.ne (congrFun heq c)
  | _ => trivial

/-- A client's object of either level, over every run: where failures and the causal
trigger leave no version that was not read with its data, a load that finds its version
stored returns what is stored. -/
theorem cache_faithful (size : D → ℕ) (buffer : Option D) (n : ℕ) :
    (∀ (row : StrongRow D) acts,
      (∀ s a s', Takes (step (strongBackend D) size) (opened row buffer n) acts s a s' →
        s.FailsSafely (strongBackend D) size a) →
      ∀ s, Visits (step (strongBackend D) size) (opened row buffer n) acts s →
        s.Faithful (strongBackend D)) ∧
    ∀ (blob : Blob ι D) acts,
      (∀ s a s', Takes (step (causalBackend ι D) size) (opened blob buffer n) acts s a s' →
        s.FailsSafely (causalBackend ι D) size a ∧ s.TriggersSafely size a) →
      ∀ s, Visits (step (causalBackend ι D) size) (opened blob buffer n) acts s →
        s.Faithful (causalBackend ι D) := by
  constructor
  · intro row acts safe s hs
    refine visits_faithful row buffer n acts (fun t a t' ht => ⟨safe t a t' ht, ?_⟩) hs
    exact strong_storesSafely t a
  · intro blob acts safe s hs
    refine visits_faithful blob buffer n acts (fun t a t' ht => ⟨(safe t a t' ht).1, ?_⟩) hs
    exact causal_storesSafely (safe t a t' ht).2

end CachedObject

end Levels

section Failures

namespace CachedObject

/-- A client reads a large object, others write it, and the client reads it again. -/
def readTwice : List (CacheAction ℕ) :=
  [.begin, .load .nothing, .commit false, .otherCommits 7, .begin, .load .nothing]

theorem readTwice_faithful :
    (∀ s, Visits (step (strongBackend ℕ) fun _ => 200) (opened ⟨0, 5⟩ none 200) readTwice s →
      s.Faithful (strongBackend ℕ)) ∧
    ∀ s, Visits (step (causalBackend (Fin 2) ℕ) fun _ => 200)
        (opened ⟨⟨5, ![0, 0, 0, 0], 0⟩, fun _ => ⟨5, ![0, 0, 0, 0], 0⟩⟩ none 200)
        [.begin, .load .nothing] s →
      s.Faithful (causalBackend (Fin 2) ℕ) := by
  have faithful := cache_faithful (ι := Fin 2) (fun _ : ℕ => 200) none 200
  refine ⟨faithful.1 _ _ fun s a s' h => ?_, faithful.2 _ _ fun s a s' h => ?_⟩
  · obtain ⟨pre, post, hacts, -⟩ := h
    have mem : a ∈ readTwice := by simp [hacts]
    fin_cases mem <;> simp [FailsSafely]
  · obtain ⟨pre, post, hacts, -⟩ := h
    have mem : a ∈ [CacheAction.begin, .load .nothing] := by simp [hacts]
    fin_cases mem <;> exact ⟨trivial, trivial⟩

/-- A client reads a large object and puts 6, but the update fails. -/
def failedPut : List (CacheAction ℕ) :=
  [.begin, .load .nothing, .put 6 true, .begin]

/-- The next load finds version 0 and returns 6, but 5 is stored. -/
theorem failedPut_unfaithful :
    ¬ ∀ s, Visits (step (strongBackend ℕ) fun _ => 200) (opened ⟨0, 5⟩ none 200) failedPut s →
      s.Faithful (strongBackend ℕ) := by
  intro faithful
  have served := faithful _ (visits_end (rfl : Library.Runs.run _ _ failedPut = some
    ⟨⟨0, 5⟩, some ⟨⟨0, 5⟩, false, false⟩, some 6, 200, some 0⟩))
  have stored : (some 6 : Option ℕ) = some 5 := served _ rfl (by decide) rfl
  exact absurd stored (by decide)

end CachedObject

end Failures

end MixT.Pgsql
