import MixT.Library.Runs
import Mathlib.Data.Fin.Basic
import Mathlib.Data.List.FinRange
import Mathlib.Logic.Function.Basic

/-! # The allocator of syntax tree nodes

A fixed array of slots with a flag for each slot that is still open, and
references that count slots from one. A client holds the live references it
was given, and frees them or writes through them in any order. -/

namespace MixT.Parsing

open MixT.Library.Runs

/-- What stops a program that uses the allocator. -/
inductive Fault where
  | assertFailed
  | outOfBounds
  deriving Repr, DecidableEq

structure SingleAllocator (size : ℕ) (T : Type*) where
  data : Fin size → T
  openSlots : Fin size → Bool

/-- One-based; zero is the null reference. -/
structure AllocatedRef (T : Type*) where
  indx : ℕ
  deriving Repr, DecidableEq

variable {size : ℕ} {T : Type*}

/-- The slot a reference stands for. -/
def AllocatedRef.Denotes (r : AllocatedRef T) (i : Fin size) : Prop := r.indx = i + 1

theorem AllocatedRef.Denotes.unique {r : AllocatedRef T} {i j : Fin size}
    (hi : r.Denotes i) (hj : r.Denotes j) : i = j := by
  apply Fin.ext
  have same : (i : ℕ) + 1 = j + 1 := hi.symm.trans hj
  omega

namespace SingleAllocator

/-- The default constructor: every slot is open. -/
def initial (data : Fin size → T) : SingleAllocator size T where
  data := data
  openSlots _ := true

/-- The first open slot, if any: the loop of `_allocate`. -/
def firstOpen (sa : SingleAllocator size T) : Option (Fin size) :=
  (List.finRange size).find? sa.openSlots

theorem firstOpen_some {sa : SingleAllocator size T} {i : Fin size}
    (h : sa.firstOpen = some i) : sa.openSlots i = true :=
  List.find?_some h

theorem firstOpen_none {sa : SingleAllocator size T} :
    sa.firstOpen = none ↔ ∀ i, sa.openSlots i = false := by
  simp [firstOpen, List.find?_eq_none]

/-- Without an open slot, slot three is inspected whatever the size, the assertion fails
where assertions are compiled, and zero is returned where they are not. -/
def _allocate (asserts : Bool) (sa : SingleAllocator size T) :
    Except Fault (SingleAllocator size T × ℕ) :=
  match sa.firstOpen with
  | some i => .ok ({ sa with openSlots := Function.update sa.openSlots i false }, i)
  | none =>
      if h : 3 < size then
        if !sa.openSlots ⟨3, h⟩ then
          if asserts then .error .assertFailed else .ok (sa, 0)
        else .ok (sa, 0)
      else .error .outOfBounds

def free (sa : SingleAllocator size T) (i : ℕ) : Except Fault (SingleAllocator size T) :=
  if h : i < size then
    .ok { sa with openSlots := Function.update sa.openSlots ⟨i, h⟩ true }
  else .error .outOfBounds

/-- `allocate`, through the constructor of references. -/
def allocate (asserts : Bool) (sa : SingleAllocator size T) :
    Except Fault (SingleAllocator size T × AllocatedRef T) :=
  (sa._allocate asserts).map fun (sa', i) => (sa', ⟨i + 1⟩)

end SingleAllocator

namespace AllocatedRef

def free (r : AllocatedRef T) (sa : SingleAllocator size T) :
    Except Fault (SingleAllocator size T) :=
  sa.free r.indx

/-- The place `get` refers to. The array checks its index, and the null reference
wraps around to an index beyond every array. -/
def place (r : AllocatedRef T) (size : ℕ) : Except Fault (Fin size) :=
  if h : 0 < r.indx ∧ r.indx - 1 < size then .ok ⟨r.indx - 1, h.2⟩ else .error .outOfBounds

def get (r : AllocatedRef T) (sa : SingleAllocator size T) : Except Fault T :=
  (r.place size).map sa.data

/-- Change the node that `get` refers to. -/
def modify (r : AllocatedRef T) (f : T → T) (sa : SingleAllocator size T) :
    Except Fault (SingleAllocator size T) :=
  (r.place size).map fun i => { sa with data := Function.update sa.data i (f (sa.data i)) }

theorem place_eq {r : AllocatedRef T} {i : Fin size} (h : r.Denotes i) :
    r.place size = .ok i := by
  have inside : 0 < r.indx ∧ r.indx - 1 < size := by
    have bound := i.isLt
    have at_i : r.indx = i + 1 := h
    omega
  have there : (⟨r.indx - 1, inside.2⟩ : Fin size) = i := by
    apply Fin.ext
    have at_i : r.indx = i + 1 := h
    simp [at_i]
  rw [place, dif_pos inside, there]

end AllocatedRef

/-- An allocator and the live references given out by it. -/
structure Client (size : ℕ) (T : Type*) where
  allocator : SingleAllocator size T
  live : List (AllocatedRef T)

/-- What a client can do: `free k` and `modify k f` use the `k`-th live reference. -/
inductive Command (T : Type*) where
  | allocate
  | free (k : ℕ)
  | modify (k : ℕ) (f : T → T)

namespace Client

def initial (data : Fin size → T) : Client size T := ⟨.initial data, []⟩

/-- One command of the client. A command on a reference it does not hold is not run. -/
def exec (asserts : Bool) (c : Client size T) : Command T → Except Fault (Client size T)
  | .allocate => (c.allocator.allocate asserts).map fun (sa, r) => ⟨sa, c.live ++ [r]⟩
  | .free k =>
      match c.live[k]? with
      | some r => (r.free c.allocator).map fun sa => ⟨sa, c.live.eraseIdx k⟩
      | none => .ok c
  | .modify k f =>
      match c.live[k]? with
      | some r => (r.modify f c.allocator).map fun sa => ⟨sa, c.live⟩
      | none => .ok c

/-- The state after a command that was not stopped. -/
def next (asserts : Bool) (c : Client size T) (cmd : Command T) : Option (Client size T) :=
  (c.exec asserts cmd).toOption

/-- Some live reference denotes the slot. -/
def Holds (c : Client size T) (i : Fin size) : Prop := ∃ r ∈ c.live, r.Denotes i

/-- Every live reference denotes a slot of the array, and no two denote the same one. -/
structure Separate (c : Client size T) : Prop where
  inside : ∀ r ∈ c.live, ∃ i : Fin size, r.Denotes i
  apart : ∀ i : Fin size, c.live.Pairwise fun r s => ¬ (r.Denotes i ∧ s.Denotes i)

/-- The nodes behind the references that live in both are the same in both. -/
def SameContents (c c' : Client size T) : Prop :=
  ∀ i, c.Holds i → c'.Holds i → c'.allocator.data i = c.allocator.data i

/-- What a command must do: an allocation gives a slot that is not live and closes only it,
and may refuse only when every slot is live; a free opens exactly the slot of its
reference; neither changes the node behind a live reference; a change through a reference
changes the node of that reference only; and all that is live stays separate. -/
def Correct (asserts : Bool) (c : Client size T) : Command T → Prop
  | .allocate =>
      match c.exec asserts .allocate with
      | .ok c' => c'.Separate ∧ SameContents c c' ∧ ∃ r i, r.Denotes i ∧ ¬ c.Holds i ∧
          c'.live = c.live ++ [r] ∧
          c'.allocator.openSlots = Function.update c.allocator.openSlots i false
      | .error .assertFailed => ∀ i, c.Holds i
      | .error .outOfBounds => False
  | .free k => ∀ r, c.live[k]? = some r → ∃ c', c.exec asserts (.free k) = .ok c' ∧
      c'.Separate ∧ SameContents c c' ∧ c'.live = c.live.eraseIdx k ∧ ∃ i, r.Denotes i ∧
        c'.allocator.openSlots = Function.update c.allocator.openSlots i true
  | .modify k f => ∀ r, c.live[k]? = some r → ∃ c', c.exec asserts (.modify k f) = .ok c' ∧
      c'.Separate ∧ c'.live = c.live ∧ c'.allocator.openSlots = c.allocator.openSlots ∧
        ∃ i, r.Denotes i ∧
          c'.allocator.data = Function.update c.allocator.data i (f (c.allocator.data i))

/-- An allocation finds a slot that is not live, or is stopped by its assertion (which
looks at the fourth slot); no live reference is freed. -/
def Meets (asserts : Bool) (c : Client size T) : Command T → Prop
  | .allocate => (∃ i, ¬ c.Holds i) ∨ (asserts = true ∧ 4 ≤ size)
  | .free k => c.live.length ≤ k
  | .modify _ _ => True

/-- Every command of a run from an empty allocator does what it must. -/
def RunCorrect (asserts : Bool) (data : Fin size → T) (cmds : List (Command T)) : Prop :=
  ∀ c cmd, Attempts (next asserts) (initial data) cmds c cmd → c.Correct asserts cmd

def RunMeets (asserts : Bool) (data : Fin size → T) (cmds : List (Command T)) : Prop :=
  ∀ c cmd, Attempts (next asserts) (initial data) cmds c cmd → c.Meets asserts cmd

/-! ## What one command does -/

variable {asserts : Bool} {c c' : Client size T} {i : Fin size} {r : AllocatedRef T}

theorem exec_allocate_open (h : c.allocator.firstOpen = some i) :
    c.exec asserts .allocate =
      .ok ⟨{ c.allocator with openSlots := Function.update c.allocator.openSlots i false },
        c.live ++ [⟨i + 1⟩]⟩ := by
  simp [exec, SingleAllocator.allocate, SingleAllocator._allocate, h, Except.map]

theorem exec_allocate_full (h : c.allocator.firstOpen = none) :
    c.exec asserts .allocate =
      if 3 < size then
        if asserts then .error .assertFailed else .ok ⟨c.allocator, c.live ++ [⟨1⟩]⟩
      else .error .outOfBounds := by
  have closed := SingleAllocator.firstOpen_none.mp h
  simp only [exec, SingleAllocator.allocate, SingleAllocator._allocate, h, closed]
  split <;> cases asserts <;> rfl

theorem exec_modify {k : ℕ} {f : T → T} (h : c.live[k]? = some r) (d : r.Denotes i) :
    c.exec asserts (.modify k f) =
      .ok ⟨{ c.allocator with
        data := Function.update c.allocator.data i (f (c.allocator.data i)) }, c.live⟩ := by
  simp [exec, h, AllocatedRef.modify, AllocatedRef.place_eq d, Except.map]

theorem next_eq_some {cmd : Command T} :
    c.next asserts cmd = some c' ↔ c.exec asserts cmd = .ok c' := by
  simp only [next]
  cases c.exec asserts cmd <;> simp [Except.toOption]

theorem holds_snoc {sa : SingleAllocator size T} :
    (⟨sa, c.live ++ [r]⟩ : Client size T).Holds i ↔ c.Holds i ∨ r.Denotes i := by
  simp [Holds, or_and_right, exists_or]

/-! ## While nothing has been freed -/

/-- The closed slots are exactly the live ones. -/
structure Tidy (c : Client size T) : Prop where
  separate : c.Separate
  closed : ∀ i, c.allocator.openSlots i = false ↔ c.Holds i

theorem tidy_initial (data : Fin size → T) : (initial data).Tidy where
  separate := ⟨by simp [initial], by simp [initial]⟩
  closed := by simp [initial, SingleAllocator.initial, Holds]

theorem Tidy.firstOpen_free (tidy : c.Tidy) (h : c.allocator.firstOpen = some i) :
    ¬ c.Holds i := by
  intro held
  have shut := (tidy.closed i).mpr held
  exact absurd (SingleAllocator.firstOpen_some h) (by simp [shut])

theorem Tidy.full (tidy : c.Tidy) (h : c.allocator.firstOpen = none) : ∀ i, c.Holds i :=
  fun i => (tidy.closed i).mp (SingleAllocator.firstOpen_none.mp h i)

/-- A reference to a slot that is not live joins the live ones. -/
theorem Separate.snoc (separate : c.Separate) (fresh : ¬ c.Holds i)
    (sa : SingleAllocator size T) : (⟨sa, c.live ++ [⟨i + 1⟩]⟩ : Client size T).Separate where
  inside := by
    intro r hr
    rcases List.mem_append.mp hr with old | new
    · exact separate.inside r old
    · exact ⟨i, by rw [List.mem_singleton.mp new]; rfl⟩
  apart := by
    intro j
    apply List.pairwise_append.mpr
    refine ⟨separate.apart j, List.pairwise_singleton _ _, ?_⟩
    rintro r hr s hs ⟨hrj, hsj⟩
    have new : s.Denotes i := by rw [List.mem_singleton.mp hs]; rfl
    exact fresh ⟨r, hr, new.unique hsj ▸ hrj⟩

theorem Tidy.allocate (tidy : c.Tidy) (h : c.allocator.firstOpen = some i) :
    Tidy ⟨{ c.allocator with openSlots := Function.update c.allocator.openSlots i false },
      c.live ++ [⟨i + 1⟩]⟩ where
  separate := tidy.separate.snoc (tidy.firstOpen_free h) _
  closed := by
    intro j
    rw [holds_snoc]
    by_cases same : j = i
    · subst same
      simp [AllocatedRef.Denotes]
    · have other : ¬ (⟨i + 1⟩ : AllocatedRef T).Denotes j := by
        intro d
        have new : (⟨i + 1⟩ : AllocatedRef T).Denotes i := rfl
        exact same (d.unique new)
      simp [Function.update_of_ne same, tidy.closed j, other]

theorem Tidy.meets_keeps {cmd : Command T} (tidy : c.Tidy) (meets : c.Meets asserts cmd)
    (h : c.next asserts cmd = some c') : c'.Tidy := by
  rw [next_eq_some] at h
  cases cmd with
  | allocate =>
      cases found : c.allocator.firstOpen with
      | some i =>
          rw [exec_allocate_open found] at h
          cases h
          exact tidy.allocate found
      | none =>
          rw [exec_allocate_full found] at h
          obtain ⟨i, free⟩ | ⟨rfl, large⟩ := meets
          · exact absurd (tidy.full found i) free
          · simp [show 3 < size by omega] at h
  | free k =>
      have none_there : c.live[k]? = none := List.getElem?_eq_none meets
      simp only [exec, none_there] at h
      cases h
      exact tidy
  | modify k f =>
      cases there : c.live[k]? with
      | none =>
          simp only [exec, there] at h
          cases h
          exact tidy
      | some r =>
          obtain ⟨i, d⟩ := tidy.separate.inside r (List.mem_of_getElem? there)
          rw [exec_modify there d] at h
          cases h
          exact ⟨⟨tidy.separate.inside, tidy.separate.apart⟩, tidy.closed⟩

/-! ## Each command is right exactly under its condition -/

theorem Tidy.correct_allocate (tidy : c.Tidy) :
    c.Correct asserts .allocate ↔ c.Meets asserts .allocate := by
  cases found : c.allocator.firstOpen with
  | some i =>
      have fresh := tidy.firstOpen_free found
      have meets : c.Meets asserts .allocate := Or.inl ⟨i, fresh⟩
      refine iff_of_true ?_ meets
      simp only [Correct, exec_allocate_open found]
      refine ⟨(tidy.allocate found).separate, ?_, ⟨i + 1⟩, i, rfl, fresh, rfl, rfl⟩
      intro j _ _
      rfl
  | none =>
      have full := tidy.full found
      simp only [Correct, Meets, exec_allocate_full found]
      by_cases large : 3 < size
      · cases asserts with
        | true => simp [large, full, show 4 ≤ size from large]
        | false =>
            simp only [large, if_true, Bool.false_eq_true, if_false]
            apply iff_of_false
            · rintro ⟨-, -, r, i, -, fresh, -⟩
              exact fresh (full i)
            · simp [full]
      · simp [large, full]
        omega

/-- The slot opened is the one after the slot of the reference. -/
theorem Tidy.correct_free (tidy : c.Tidy) (k : ℕ) :
    c.Correct asserts (.free k) ↔ c.Meets asserts (.free k) := by
  constructor
  · intro correct
    by_contra held
    have inside : k < c.live.length := not_le.mp held
    obtain ⟨r, there⟩ : ∃ r, c.live[k]? = some r := ⟨_, List.getElem?_eq_getElem inside⟩
    obtain ⟨c', ran, -, -, -, i, d, opened⟩ := correct r there
    simp only [exec, there, AllocatedRef.free, SingleAllocator.free] at ran
    split at ran
    · rename_i bound
      cases ran
      have shut : c.allocator.openSlots i = false :=
        (tidy.closed i).mpr ⟨r, List.mem_of_getElem? there, d⟩
      have elsewhere : i ≠ ⟨_, bound⟩ := by
        intro same
        have at_i : r.indx = i + 1 := d
        have at_next : (i : ℕ) = r.indx := congrArg Fin.val same
        omega
      have at_own := congrFun opened i
      simp [Function.update_of_ne elsewhere, shut] at at_own
    · cases ran
  · intro none_there r there
    rw [List.getElem?_eq_none none_there] at there
    cases there

theorem Tidy.correct_modify (tidy : c.Tidy) (k : ℕ) (f : T → T) :
    c.Correct asserts (.modify k f) := by
  intro r there
  obtain ⟨i, d⟩ := tidy.separate.inside r (List.mem_of_getElem? there)
  refine ⟨_, exec_modify there d, ⟨tidy.separate.inside, tidy.separate.apart⟩, rfl, rfl, ?_⟩
  exact ⟨i, d, rfl⟩

theorem Tidy.correct_iff (tidy : c.Tidy) (cmd : Command T) :
    c.Correct asserts cmd ↔ c.Meets asserts cmd := by
  cases cmd with
  | allocate => exact tidy.correct_allocate
  | free k => exact tidy.correct_free k
  | modify k f => exact iff_of_true (tidy.correct_modify k f) trivial

/-- For every capacity and every sequence of commands: no live slot is ever handed out,
opened or changed by another command exactly when no allocation comes with every slot live
(unless an assertion stops it) and no live reference is freed. -/
theorem run_correct_iff (asserts : Bool) (data : Fin size → T) (cmds : List (Command T)) :
    RunCorrect asserts data cmds ↔ RunMeets asserts data cmds := by
  apply attempts_iff_attempts Tidy (Correct asserts) (Meets asserts) (tidy_initial data)
  · intro c cmd c' ran tidy meets
    exact tidy.meets_keeps meets ran
  · intro c cmd tidy
    exact tidy.correct_iff cmd

/-- Two nodes, the first freed, and a third one: it gets the slot of the second. -/
def freeThenAllocate : List (Command ℕ) := [.allocate, .allocate, .free 0, .allocate]

/-- Both live references denote slot one, and the run is not correct. -/
theorem freeThenAllocate_shares :
    ((run (next true) (initial fun _ : Fin 15 => 0) freeThenAllocate).map live =
      some [⟨2⟩, ⟨2⟩]) ∧
    ¬ RunCorrect true (fun _ : Fin 15 => 0) freeThenAllocate := by
  refine ⟨by decide, ?_⟩
  intro correct
  obtain ⟨separate, -⟩ :=
    correct _ .allocate ⟨[.allocate, .allocate, .free 0], [], rfl, rfl⟩
  cases separate.apart 1 with
  | cons first _ => exact first ⟨2⟩ (List.mem_singleton.mpr rfl) ⟨rfl, rfl⟩

end Client

end MixT.Parsing
