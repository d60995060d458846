import Mathlib.Algebra.Order.Ring.Int
import Mathlib.Logic.Function.Basic

/-! # Objects of the testing store

The store keeps, under each name, a shared pointer to a value. An object is a
name in a store; reading an object returns the shared pointer itself, and
writing one changes the value the pointer leads to. -/

namespace MixT.TestingStore

/-- The C++ types of stored values: integers, lists and any others. -/
inductive Ty (B : Type) where
  | int
  | base (b : B)
  | list (t : Ty B)
  deriving DecidableEq

/-- The values of a type, given those of the other types. -/
def Val {B : Type} (base : B → Type) : Ty B → Type
  | .int => ℤ
  | .base b => base b
  | .list t => List (Val base t)

section Val

variable {B : Type} {base : B → Type} {t : Ty B}

def Val.succ (i : Val base .int) : Val base .int := Int.add i 1

def Val.pushBack (lst : Val base (.list t)) (v : Val base t) : Val base (.list t) :=
  List.append lst [v]

theorem Val.succ_ne (i : Val base .int) : i.succ ≠ i := by
  have next (j : ℤ) : j + 1 ≠ j := by omega
  exact next i

theorem Val.pushBack_ne (lst : Val base (.list t)) (v : Val base t) :
    lst.pushBack v ≠ lst := by
  have longer (l : List (Val base t)) : l ++ [v] ≠ l := by simp
  exact longer lst

end Val

abbrev Name := ℤ

/-- A heterogeneous map: under each key it holds at most one entry of each type. -/
structure HeteroMap (Key Ty Entry : Type) where
  Carrier : Type
  empty : Carrier
  find : Carrier → Ty → Key → Option Entry
  set : Carrier → Ty → Key → Entry → Carrier
  contains : Carrier → Key → Bool
  find_empty : ∀ t k, find empty t k = none
  find_set : ∀ m t k e, find (set m t k e) t k = some e
  find_set_other : ∀ m t k e t' k', (t', k') ≠ (t, k) → find (set m t k e) t' k' = find m t' k'
  contains_iff : ∀ m k, contains m k = true ↔ ∃ t, find m t k ≠ none

/-- The heterogeneous map as a list of entries, the latest first. -/
def HeteroMap.entries (Key Ty Entry : Type) [DecidableEq Key] [DecidableEq Ty] :
    HeteroMap Key Ty Entry where
  Carrier := List ((Ty × Key) × Entry)
  empty := []
  find m t k := m.lookup (t, k)
  set m t k e := ((t, k), e) :: m
  contains m k := m.any fun entry => entry.1.2 = k
  find_empty _ _ := rfl
  find_set _ _ _ _ := List.lookup_cons_self
  find_set_other m t k e t' k' h := by
    rw [List.lookup_cons, beq_false_of_ne h]
  contains_iff m k := by
    have present (t : Ty) : m.lookup (t, k) ≠ none ↔ ∃ e, ((t, k), e) ∈ m := by
      rw [Ne, List.lookup_eq_none_iff]
      simp
    simp only [present, List.any_eq_true, decide_eq_true_eq]
    constructor
    · rintro ⟨⟨⟨t, _⟩, e⟩, mem, rfl⟩
      exact ⟨t, e, mem⟩
    · rintro ⟨t, e, mem⟩
      exact ⟨((t, k), e), mem, rfl⟩

section Update

variable {A K : Type} [DecidableEq A] [DecidableEq K] {V : A → Type} (f : (a : A) → K → V a)
variable {a a' : A} {k k' : K} (v : V a)

/-- Updating a table of tables in one place. -/
def updateAt (a : A) (k : K) (v : V a) : (a : A) → K → V a :=
  Function.update f a (Function.update (f a) k v)

@[simp] theorem updateAt_self : updateAt f a k v a k = v := by
  simp [updateAt]

theorem updateAt_other (h : (a', k') ≠ (a, k)) : updateAt f a k v a' k' = f a' k' := by
  simp only [updateAt]
  by_cases same : a' = a
  · subst same
    have other : k' ≠ k := fun e => h (by rw [e])
    simp [Function.update_of_ne other]
  · rw [Function.update_of_ne same]

end Update

section Store

variable {B : Type} (base : B → Type) (M : HeteroMap Name (Ty B) (Option ℕ))

/-- The map of shared pointers, and the memory they lead to. A pointer is the
number of its cell; `none` is the null pointer. -/
structure Store where
  objectStore : M.Carrier
  heap : (t : Ty B) → ℕ → Option (Val base t)
  next : ℕ

end Store

namespace Store

variable {B : Type} {base : B → Type} {M : HeteroMap Name (Ty B) (Option ℕ)}

def initial : Store base M := ⟨M.empty, fun _ _ => none, 0⟩

/-- The shared pointer stored under a name: no copy of the value is made. -/
def get (s : Store base M) (t : Ty B) (name : Name) : Option ℕ :=
  (M.find s.objectStore t name).join

/-- The value a pointer leads to now. -/
def deref (s : Store base M) (t : Ty B) (p : ℕ) : Option (Val base t) := s.heap t p

/-- The value read through an object of the name. -/
def read (s : Store base M) (t : Ty B) (name : Name) : Option (Val base t) :=
  (s.get t name).bind (s.deref t)

variable [DecidableEq B]

/-- Change the value a pointer leads to. -/
def assign (s : Store base M) (t : Ty B) (p : ℕ) (v : Val base t) : Store base M :=
  { s with heap := updateAt s.heap t p (some v) }

/-- A new shared pointer to the value, stored under the name. -/
def storeFresh (s : Store base M) (t : Ty B) (name : Name) (v : Val base t) : Store base M :=
  { s.assign t s.next v with
    objectStore := M.set s.objectStore t name (some s.next)
    next := s.next + 1 }

def put (s : Store base M) (t : Ty B) (name : Name) (v : Val base t) : Store base M :=
  match M.find s.objectStore t name with
  | none => s.storeFresh t name v
  | some none => s.storeFresh t name v
  | some (some p) => s.assign t p v

def newObject (s : Store base M) (t : Ty B) (name : Name) (init : Val base t) : Store base M :=
  s.put t name init

/-- The name every object made by the language's `new` gets. -/
def createdName : Name := 124

def createNew (s : Store base M) (t : Ty B) (init : Val base t) : Store base M :=
  s.newObject t createdName init

def isValid (s : Store base M) (name : Name) : Bool := M.contains s.objectStore name

/-- Push onto the stored list, in place. -/
def append (s : Store base M) (t : Ty B) (name : Name) (v : Val base t) :
    Option (Store base M) :=
  (s.get (.list t) name).bind fun p =>
    (s.deref (.list t) p).map fun lst => s.assign (.list t) p (lst.pushBack v)

def increment (s : Store base M) (name : Name) : Option (Store base M) :=
  (s.read .int name).map fun i => s.put .int name i.succ

/-- A copy of the value. -/
def consistentRead (s : Store base M) (t : Ty B) (name : Name) : Option (Val base t) :=
  (s.get t name).bind (s.deref t)

/-! ## What each operation does to what is read -/

/-- Every stored pointer leads to a value of its own. -/
structure Sound (s : Store base M) : Prop where
  filled : ∀ t n e, M.find s.objectStore t n = some e → ∃ p, e = some p
  there : ∀ t n p, s.get t n = some p → p < s.next ∧ s.deref t p ≠ none
  apart : ∀ t n m p, s.get t n = some p → s.get t m = some p → n = m
  beyond : ∀ t p, s.next ≤ p → s.deref t p = none

variable {s : Store base M} {t t' : Ty B} {n m : Name} {p q : ℕ}

omit [DecidableEq B] in
theorem sound_initial : (initial : Store base M).Sound where
  filled := by simp [initial, M.find_empty]
  there := by simp [initial, get, M.find_empty]
  apart := by simp [initial, get, M.find_empty]
  beyond := by simp [initial, deref]

@[simp] theorem get_assign (v : Val base t) :
    (s.assign t p v).get t' n = s.get t' n := rfl

theorem deref_assign_self (v : Val base t) : (s.assign t p v).deref t p = some v :=
  updateAt_self s.heap (some v)

theorem deref_assign_other (v : Val base t) (h : (t', q) ≠ (t, p)) :
    (s.assign t p v).deref t' q = s.deref t' q :=
  updateAt_other s.heap (some v) h

omit [DecidableEq B] in
theorem get_some_find (h : s.get t n = some p) : M.find s.objectStore t n = some (some p) := by
  simpa [get, Option.join_eq_some_iff] using h

omit [DecidableEq B] in
theorem Sound.get_none (sound : s.Sound) (h : s.get t n = none) :
    M.find s.objectStore t n = none := by
  cases found : M.find s.objectStore t n with
  | none => rfl
  | some e =>
      obtain ⟨p, rfl⟩ := sound.filled t n e found
      simp [get, found] at h

omit [DecidableEq B] in
theorem Sound.read_none (sound : s.Sound) : s.read t n = none ↔ s.get t n = none := by
  cases found : s.get t n with
  | none => simp [read, found]
  | some p => simpa [read, found] using (sound.there t n p found).2

theorem put_stored (h : s.get t n = some p) (v : Val base t) : s.put t n v = s.assign t p v := by
  rw [put, get_some_find h]

theorem Sound.put_absent (sound : s.Sound) (h : s.get t n = none) (v : Val base t) :
    s.put t n v = s.storeFresh t n v := by
  rw [put, sound.get_none h]

theorem get_storeFresh_self (v : Val base t) : (s.storeFresh t n v).get t n = some s.next := by
  simp [storeFresh, get, M.find_set]

theorem get_storeFresh_other (v : Val base t) (h : (t', m) ≠ (t, n)) :
    (s.storeFresh t n v).get t' m = s.get t' m := by
  simp [storeFresh, get, M.find_set_other _ _ _ _ _ _ h]

theorem deref_storeFresh (v : Val base t) :
    (s.storeFresh t n v).deref t' q = (s.assign t s.next v).deref t' q := rfl

/-- A cell that holds a value is not the next fresh one. -/
theorem Sound.deref_fresh (sound : s.Sound) (v : Val base t) (h : s.deref t' q ≠ none) :
    (s.storeFresh t n v).deref t' q = s.deref t' q := by
  rw [deref_storeFresh]
  apply deref_assign_other
  intro same
  cases same
  exact h (sound.beyond t s.next le_rfl)

theorem Sound.assign (sound : s.Sound) (h : s.get t n = some p) (v : Val base t) :
    (s.assign t p v).Sound where
  filled := sound.filled
  there := by
    intro t' m q at_m
    refine ⟨(sound.there t' m q at_m).1, ?_⟩
    by_cases same : (t', q) = (t, p)
    · cases same
      simp [deref_assign_self]
    · rw [deref_assign_other v same]
      exact (sound.there t' m q at_m).2
  apart := sound.apart
  beyond := by
    intro t' q far
    have inside : p < s.next := (sound.there t n p h).1
    have other : (t', q) ≠ (t, p) := by
      intro same
      cases same
      exact absurd far (not_le.mpr inside)
    rw [deref_assign_other v other]
    exact sound.beyond t' q far

theorem Sound.fresh (sound : s.Sound) (v : Val base t) : (s.storeFresh t n v).Sound where
  filled := by
    intro t' m e found
    by_cases same : (t', m) = (t, n)
    · cases same
      have stored := M.find_set s.objectStore t n (some s.next)
      exact ⟨s.next, Option.some.inj (found.symm.trans stored)⟩
    · rw [show M.find (s.storeFresh t n v).objectStore t' m = M.find s.objectStore t' m from
        M.find_set_other _ _ _ _ _ _ same] at found
      exact sound.filled t' m e found
  there := by
    intro t' m q found
    by_cases same : (t', m) = (t, n)
    · cases same
      rw [get_storeFresh_self] at found
      cases found
      exact ⟨Nat.lt_succ_self _, by simp [deref_storeFresh, deref_assign_self]⟩
    · rw [get_storeFresh_other v same] at found
      obtain ⟨inside, held⟩ := sound.there t' m q found
      refine ⟨Nat.lt_succ_of_lt inside, ?_⟩
      rwa [sound.deref_fresh v held]
  apart := by
    intro t' m k q at_m at_k
    -- Only the written name leads to the fresh cell.
    have fresh_only (k : Name) (h : (s.storeFresh t n v).get t' k = some q)
        (other : (t', k) ≠ (t, n)) : s.get t' k = some q ∧ q < s.next := by
      rw [get_storeFresh_other v other] at h
      exact ⟨h, (sound.there t' k q h).1⟩
    by_cases same_m : (t', m) = (t, n)
    · cases same_m
      rw [get_storeFresh_self] at at_m
      cases at_m
      by_contra differ
      have other : (t, k) ≠ (t, n) := by
        intro same
        cases same
        exact differ rfl
      exact absurd (fresh_only k at_k other).2 (lt_irrefl _)
    · by_cases same_k : (t', k) = (t, n)
      · cases same_k
        rw [get_storeFresh_self] at at_k
        cases at_k
        exact absurd (fresh_only m at_m same_m).2 (lt_irrefl _)
      · exact sound.apart t' m k q (fresh_only m at_m same_m).1 (fresh_only k at_k same_k).1
  beyond := by
    intro t' q far
    have other : (t', q) ≠ (t, s.next) := by
      intro same
      cases same
      exact absurd far (not_le.mpr (Nat.lt_succ_self _))
    rw [deref_storeFresh, deref_assign_other v other]
    exact sound.beyond t' q (Nat.le_of_succ_le far)

theorem Sound.put (sound : s.Sound) (v : Val base t) : (s.put t n v).Sound := by
  cases found : s.get t n with
  | none =>
      rw [sound.put_absent found]
      exact sound.fresh v
  | some p =>
      rw [put_stored found]
      exact sound.assign found v

/-- What is put is what is read. -/
theorem Sound.read_put_self (sound : s.Sound) (v : Val base t) :
    (s.put t n v).read t n = some v := by
  cases found : s.get t n with
  | none =>
      rw [sound.put_absent found, read, get_storeFresh_self]
      exact deref_assign_self v
  | some p =>
      rw [put_stored found, read, get_assign, found]
      exact deref_assign_self v

/-- Writing under one name changes nothing read under another. -/
theorem Sound.read_put_other (sound : s.Sound) (v : Val base t) (h : (t', m) ≠ (t, n)) :
    (s.put t n v).read t' m = s.read t' m := by
  cases found : s.get t n with
  | none =>
      rw [sound.put_absent found, read, get_storeFresh_other v h, read]
      cases at_m : s.get t' m with
      | none => rfl
      | some q => exact sound.deref_fresh v (sound.there t' m q at_m).2
  | some p =>
      rw [put_stored found, read, get_assign, read]
      cases at_m : s.get t' m with
      | none => rfl
      | some q =>
          apply deref_assign_other
          intro same
          cases same
          exact h (by rw [sound.apart t n m p found at_m])

/-- A pointer to a value sees a write exactly when it is the stored pointer of the name. -/
theorem Sound.deref_put (sound : s.Sound) (v : Val base t) (held : s.deref t' q ≠ none)
    (h : ¬ (t' = t ∧ s.get t n = some q)) : (s.put t n v).deref t' q = s.deref t' q := by
  cases found : s.get t n with
  | none =>
      rw [sound.put_absent found]
      exact sound.deref_fresh v held
  | some p =>
      rw [put_stored found]
      apply deref_assign_other
      intro same
      cases same
      exact h ⟨rfl, found⟩

theorem deref_put_stored (v : Val base t) (h : s.get t n = some q) :
    (s.put t n v).deref t q = some v := by
  rw [put_stored h]
  exact deref_assign_self v

/-- A put leaves nothing empty that held a value, and fills its own name. -/
theorem Sound.get_put_none (sound : s.Sound) {v : Val base t}
    (empty : (s.put t n v).get t' m = none) : (t', m) ≠ (t, n) ∧ s.get t' m = none := by
  have unread := (sound.put v).read_none.mpr empty
  have elsewhere : (t', m) ≠ (t, n) := by
    intro same
    cases same
    rw [sound.read_put_self v] at unread
    cases unread
  rw [sound.read_put_other v elsewhere] at unread
  exact ⟨elsewhere, sound.read_none.mp unread⟩

omit [DecidableEq B] in
theorem Sound.isValid_false (sound : s.Sound) :
    s.isValid n = false ↔ ∀ t, s.get t n = none := by
  have absent (t : Ty B) : M.find s.objectStore t n = none ↔ s.get t n = none := by
    constructor
    · intro missing
      simp [get, missing]
    · exact sound.get_none
  rw [isValid, ← Bool.not_eq_true, M.contains_iff]
  simp [absent]

omit [DecidableEq B] in
theorem read_of_get (h : s.get t n = some p) : s.read t n = s.deref t p := by
  rw [read, h]
  rfl

/-- Pushing in place is putting the longer list. -/
theorem append_eq_put (v : Val base t) :
    s.append t n v = (s.read (.list t) n).map fun lst =>
      s.put (.list t) n (lst.pushBack v) := by
  cases found : s.get (.list t) n with
  | none =>
      rw [append, read, found]
      rfl
  | some p =>
      rw [append, read_of_get found, found]
      apply Option.map_congr
      intro lst _
      exact (put_stored found _).symm

end Store

end MixT.TestingStore
