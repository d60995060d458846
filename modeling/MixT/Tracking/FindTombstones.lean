import MixT.Tracking.ClientTracker

/-!
# Waiting for tombstones

Before a phase runs, the server polls the causal store for each tombstone the client
sent. All polls run in one transaction, opened before the first of them. The store's
session runs transactions as repeatable read: every statement reads what was committed
when the first one ran.
-/

namespace MixT.Tracking

/-- The names committed at the causal store, one list for each moment. Tombstones are never
removed. -/
abbrev Commits := ℕ → List Name

/-- The store holds the name at the moment. -/
def Commits.holds (h : Commits) (moment : ℕ) (n : Name) : Bool :=
  (List.range (moment + 1)).any fun m => decide (n ∈ h m)

/-- A transaction at the causal store. -/
structure CausalTransaction where
  /-- The moment its statements read, fixed by the first one. -/
  snapshot : Option ℕ

namespace CausalTransaction

/-- `begin_transaction`. -/
def begin : CausalTransaction := ⟨none⟩

/-- A statement run at a moment. -/
def statement (txn : CausalTransaction) (moment : ℕ) : CausalTransaction :=
  ⟨some (txn.snapshot.getD moment)⟩

/-- `exists`, with the transaction after the query. -/
def «exists» (h : Commits) (txn : CausalTransaction) (moment : ℕ) (n : Name) :
    Bool × CausalTransaction :=
  let txn := txn.statement moment
  (h.holds (txn.snapshot.getD moment) n, txn)

end CausalTransaction

/-- `find_tombstones` between two polls. -/
structure Waiting where
  tombstonesToFind : List Tombstone
  txn : CausalTransaction
  polls : ℕ

namespace Waiting

/-- The call, with its one transaction. -/
def call (tombstonesToFind : List Tombstone) : Waiting := ⟨tombstonesToFind, .begin, 0⟩

/-- One test of the loop in `Tracker::find_tombstones`, at the moment of the poll: the next
tombstone, or the same one again after a sleep. -/
def poll (h : Commits) (moment : ℕ → ℕ) (s : Waiting) : Waiting :=
  match s.tombstonesToFind with
  | [] => s
  | tomb :: rest =>
      let (found, txn) := s.txn.exists h (moment s.polls) tomb.name
      ⟨if found then rest else tomb :: rest, txn, s.polls + 1⟩

/-- The call after so many polls. -/
def after (h : Commits) (moment : ℕ → ℕ) (tombstonesToFind : List Tombstone) (k : ℕ) : Waiting :=
  (poll h moment)^[k] (call tombstonesToFind)

/-- The call exits after finitely many polls. -/
def Exits (h : Commits) (moment : ℕ → ℕ) (tombstonesToFind : List Tombstone) : Prop :=
  ∃ k, (after h moment tombstonesToFind k).tombstonesToFind = []

/-- A poll made at or after the commit of the tombstone it asks for observes it. -/
def Observes (h : Commits) (moment : ℕ → ℕ) (tombstonesToFind : List Tombstone) : Prop :=
  ∀ k tomb rest, (after h moment tombstonesToFind k).tombstonesToFind = tomb :: rest →
    h.holds (moment (after h moment tombstonesToFind k).polls) tomb.name = true →
    (after h moment tombstonesToFind (k + 1)).tombstonesToFind = rest

variable (h : Commits) (moment : ℕ → ℕ)

theorem after_succ (tombstonesToFind : List Tombstone) (k : ℕ) :
    after h moment tombstonesToFind (k + 1) = (after h moment tombstonesToFind k).poll h moment :=
  Function.iterate_succ_apply' ..

/-- The transaction reads the moment of the first poll. -/
def ReadsFirst (s : Waiting) : Prop :=
  s.txn.snapshot = if s.polls = 0 then none else some (moment 0)

theorem ReadsFirst.exists_eq {s : Waiting} (first : ReadsFirst moment s) (n : Name) :
    s.txn.exists h (moment s.polls) n = (h.holds (moment 0) n, ⟨some (moment 0)⟩) := by
  simp only [ReadsFirst] at first
  by_cases zero : s.polls = 0
  · simp [CausalTransaction.exists, CausalTransaction.statement, first, zero]
  · simp [CausalTransaction.exists, CausalTransaction.statement, first, zero]

/-- A poll, once it is known what its transaction reads. -/
theorem poll_cons {s : Waiting} (first : ReadsFirst moment s) {tomb : Tombstone}
    {rest : List Tombstone} (next : s.tombstonesToFind = tomb :: rest) :
    s.poll h moment =
      ⟨if h.holds (moment 0) tomb.name then rest else tomb :: rest, ⟨some (moment 0)⟩,
        s.polls + 1⟩ := by
  simp only [poll, next, first.exists_eq h moment]

theorem poll_readsFirst {s : Waiting} (first : ReadsFirst moment s) :
    ReadsFirst moment (s.poll h moment) := by
  cases next : s.tombstonesToFind with
  | nil => simpa only [poll, next] using first
  | cons tomb rest =>
      rw [poll_cons h moment first next]
      simp [ReadsFirst]

theorem after_readsFirst (tombstonesToFind : List Tombstone) (k : ℕ) :
    ReadsFirst moment (after h moment tombstonesToFind k) := by
  induction k with
  | zero => simp [ReadsFirst, after, call, CausalTransaction.begin]
  | succ k ih =>
      rw [after_succ]
      exact poll_readsFirst h moment ih

/-- A tombstone that the first poll's moment does not hold is waited for ever. -/
theorem poll_waits {s : Waiting} (first : ReadsFirst moment s)
    (missing : ∃ tomb ∈ s.tombstonesToFind, h.holds (moment 0) tomb.name = false) :
    ∃ tomb ∈ (s.poll h moment).tombstonesToFind, h.holds (moment 0) tomb.name = false := by
  obtain ⟨tomb, hmem, absent⟩ := missing
  cases next : s.tombstonesToFind with
  | nil => simp [next] at hmem
  | cons t rest =>
      refine ⟨tomb, ?_, absent⟩
      rw [poll_cons h moment first next]
      rw [next] at hmem
      cases found : h.holds (moment 0) t.name with
      | false => exact hmem
      | true =>
          apply List.mem_of_ne_of_mem ?_ hmem
          rintro rfl
          simp [absent] at found

theorem after_waits (tombstonesToFind : List Tombstone)
    (missing : ∃ tomb ∈ tombstonesToFind, h.holds (moment 0) tomb.name = false) (k : ℕ) :
    ∃ tomb ∈ (after h moment tombstonesToFind k).tombstonesToFind,
      h.holds (moment 0) tomb.name = false := by
  induction k with
  | zero => exact missing
  | succ k ih =>
      rw [after_succ]
      exact poll_waits h moment (after_readsFirst h moment tombstonesToFind k) ih

/-- With every tombstone there at the first poll, each poll finds one. -/
theorem after_finds (tombstonesToFind : List Tombstone)
    (there : ∀ tomb ∈ tombstonesToFind, h.holds (moment 0) tomb.name = true) (k : ℕ) :
    (after h moment tombstonesToFind k).tombstonesToFind = tombstonesToFind.drop k := by
  induction k with
  | zero => rfl
  | succ k ih =>
      rw [after_succ]
      have first := after_readsFirst h moment tombstonesToFind k
      cases next : (after h moment tombstonesToFind k).tombstonesToFind with
      | nil =>
          have done : tombstonesToFind.length ≤ k := by simpa [ih] using next
          rw [poll, next, List.drop_eq_nil_of_le (by omega)]
          exact next
      | cons tomb rest =>
          rw [ih] at next
          have hmem : tomb ∈ tombstonesToFind :=
            List.mem_of_mem_drop (next ▸ List.mem_cons_self ..)
          rw [poll_cons h moment first (ih.trans next), there tomb hmem]
          calc
            rest = (tombstonesToFind.drop k).tail := by rw [next]; rfl
            _ = tombstonesToFind.drop (k + 1) := List.tail_drop

/-- The call exits exactly when every tombstone was committed by the first poll, and then its
polls observe what was committed before them. -/
theorem exits_iff (tombstonesToFind : List Tombstone) :
    (Exits h moment tombstonesToFind ∧ Observes h moment tombstonesToFind) ↔
      ∀ tomb ∈ tombstonesToFind, h.holds (moment 0) tomb.name = true := by
  constructor
  · rintro ⟨⟨k, done⟩, -⟩ tomb hmem
    apply Bool.not_eq_false _ |>.mp
    intro absent
    obtain ⟨_, waiting, -⟩ := after_waits h moment tombstonesToFind ⟨tomb, hmem, absent⟩ k
    simp [done] at waiting
  · intro there
    refine ⟨⟨tombstonesToFind.length, ?_⟩, fun k tomb rest next _ => ?_⟩
    · rw [after_finds h moment tombstonesToFind there, List.drop_length]
    · rw [after_finds h moment tombstonesToFind there] at next ⊢
      calc
        tombstonesToFind.drop (k + 1) = (tombstonesToFind.drop k).tail := List.tail_drop.symm
        _ = rest := by rw [next]; rfl

/-- The tombstone is committed between the first poll and the second one. -/
theorem lateCommit_waits :
    ¬ (Exits (fun m => if m = 1 then [7] else []) id [⟨7, 0, 0⟩] ∧
      Observes (fun m => if m = 1 then [7] else []) id [⟨7, 0, 0⟩]) := by
  rintro ⟨⟨k, done⟩, -⟩
  obtain ⟨_, waiting, -⟩ := after_waits (fun m => if m = 1 then [7] else []) id [⟨7, 0, 0⟩]
    ⟨_, List.mem_cons_self .., by decide⟩ k
  simp [done] at waiting

end Waiting

end MixT.Tracking
