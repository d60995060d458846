import MixT.Library.Runs
import MixT.TestingStore.Objects

/-! # Separate objects and stable reads

A client of the testing store makes objects, finds existing ones, and reads and
writes through the handles it has. Beside the store, a run records the value
most recently stored under each name and how often a name was made anew: two
handles are for the same object when type, name and generation agree. -/

namespace MixT.TestingStore

open MixT.Library.Runs

structure Handle (B : Type) where
  type : Ty B
  name : Name
  generation : ℕ
  deriving DecidableEq

variable {B : Type} [DecidableEq B] {base : B → Type}
variable {M : HeteroMap Name (Ty B) (Option ℕ)}

/-- The store, the handles of the client, the pointers `get` returned, the copies that
consistent reads returned, and the two records about names. -/
structure Client (base : B → Type) (M : HeteroMap Name (Ty B) (Option ℕ)) where
  store : Store base M
  handles : List (Handle B)
  gets : List (Ty B × ℕ)
  copies : List ((t : Ty B) × Val base t)
  latest : (t : Ty B) → Name → Option (Val base t)
  generation : Ty B → Name → ℕ

/-- Commands name the handle they go through by its place among the client's handles. -/
inductive Command (base : B → Type) where
  | newObject (t : Ty B) (name : Name) (init : Val base t)
  | createNew (k : ℕ) (t : Ty B) (init : Val base t)
  | existingObject (t : Ty B) (name : Name)
  | put (k : ℕ) (t : Ty B) (v : Val base t)
  | get (k : ℕ)
  | increment (k : ℕ)
  | append (k : ℕ) (t : Ty B) (v : Val base t)
  | consistentRead (k : ℕ)

namespace Client

def initial : Client base M := ⟨Store.initial, [], [], [], fun _ _ => none, fun _ _ => 0⟩

/-- The handle at a place, if it is one of the type. -/
def handleAs (c : Client base M) (k : ℕ) (t : Ty B) : Option (Handle B) :=
  c.handles[k]?.filter fun h => h.type = t

/-- The value was stored under the name, which led to `s`. -/
def wrote (c : Client base M) (s : Store base M) (t : Ty B) (name : Name) (v : Val base t) :
    Client base M :=
  { c with
    store := s
    latest := updateAt c.latest t name (some v) }

/-- The handle an object made now under the name gets: a new object if the name holds one. -/
def newHandle (c : Client base M) (t : Ty B) (name : Name) : Handle B :=
  ⟨t, name, c.generation t name + if (c.store.get t name).isSome then 1 else 0⟩

def made (c : Client base M) (s : Store base M) (t : Ty B) (name : Name) (init : Val base t) :
    Client base M :=
  { c.wrote s t name init with
    handles := c.handles ++ [c.newHandle t name]
    generation := updateAt c.generation t name (c.newHandle t name).generation }

/-- One command. What goes through a handle that is not there, is of another type, or
leads to no value, is refused. -/
def exec (c : Client base M) : Command base → Option (Client base M)
  | .newObject t name init => some (c.made (c.store.newObject t name init) t name init)
  | .createNew k t init => (c.handleAs k t).map fun _ =>
      c.made (c.store.createNew t init) t Store.createdName init
  | .existingObject t name =>
      some { c with handles := c.handles ++ [⟨t, name, c.generation t name⟩] }
  | .put k t v => (c.handleAs k t).map fun h => c.wrote (c.store.put t h.name v) t h.name v
  | .get k => c.handles[k]?.bind fun h => (c.store.get h.type h.name).map fun p =>
      { c with gets := c.gets ++ [(h.type, p)] }
  | .increment k => (c.handleAs k .int).bind fun h => (c.store.read .int h.name).bind fun i =>
      (c.store.increment h.name).map fun s => c.wrote s .int h.name i.succ
  | .append k t v => (c.handleAs k (.list t)).bind fun h =>
      (c.store.read (.list t) h.name).bind fun lst =>
        (c.store.append t h.name v).map fun s =>
          c.wrote s (.list t) h.name (lst.pushBack v)
  | .consistentRead k => c.handles[k]?.bind fun h =>
      (c.store.consistentRead h.type h.name).map fun v =>
        { c with copies := c.copies ++ [⟨h.type, v⟩] }

/-! ## What a command must do, and when it does -/

/-- A write through `h` leaves alone what is read through the handles of other objects,
and the values that `get` returned before. -/
def Frame (c c' : Client base M) (h : Handle B) : Prop :=
  (∀ h' ∈ c.handles, h' ≠ h → c'.store.read h'.type h'.name = c.store.read h'.type h'.name) ∧
  ∀ g ∈ c.gets, c'.store.deref g.1 g.2 = c.store.deref g.1 g.2

/-- What goes from `c` to `c'` must do: `new` finds its name free, a write stays within its
object, and a read returns the value most recently stored under the name of its handle. -/
def Right (c : Client base M) (cmd : Command base) : Prop :=
  ∀ c', c.exec cmd = some c' →
    match cmd with
    | .newObject t name _ => Frame c c' (c.newHandle t name)
    | .createNew _ t _ => c.store.isValid Store.createdName = false ∧
        Frame c c' (c.newHandle t Store.createdName)
    | .existingObject t name => Frame c c' ⟨t, name, c.generation t name⟩
    | .put k _ _ | .increment k | .append k _ _ =>
        ∀ h, c.handles[k]? = some h → Frame c c' h
    | .get k => ∀ h v, c.handles[k]? = some h → c.latest h.type h.name = some v →
        ∃ p, c'.gets = c.gets ++ [(h.type, p)] ∧ c'.store.deref h.type p = some v
    | .consistentRead k => ∀ h v, c.handles[k]? = some h → c.latest h.type h.name = some v →
        c'.copies = c.copies ++ [⟨h.type, v⟩]

/-- A handle of another object, or a pointer that `get` returned, leads to what is stored
under the name of `h`. -/
def Watched (c : Client base M) (h : Handle B) : Prop :=
  (∃ h' ∈ c.handles, h'.type = h.type ∧ h'.name = h.name ∧ h' ≠ h) ∨
  ∃ g ∈ c.gets, g.1 = h.type ∧ c.store.get h.type h.name = some g.2

/-- Storing the value through the handle of generation `gen` changes nothing watched. -/
def Harmless (c : Client base M) (t : Ty B) (name : Name) (gen : ℕ) (v : Val base t) : Prop :=
  ∀ u, c.store.read t name = some u → c.Watched ⟨t, name, gen⟩ → v = u

/-- `new` comes while nothing is stored under its name; a write stores the value that is
there already, or no handle of another object and no earlier `get` leads there. -/
def Meets (c : Client base M) : Command base → Prop
  | .newObject t name init => c.Harmless t name (c.newHandle t name).generation init
  | .createNew k t _ => (c.handleAs k t).isSome → c.store.isValid Store.createdName = false
  | .put k t v => ∀ h, c.handleAs k t = some h → c.Harmless t h.name h.generation v
  | .increment k => ∀ h i, c.handleAs k .int = some h → c.store.read .int h.name = some i →
      ¬ c.Watched h
  | .append k t _ => ∀ h lst, c.handleAs k (.list t) = some h →
      c.store.read (.list t) h.name = some lst → ¬ c.Watched h
  | .existingObject _ _ | .get _ | .consistentRead _ => True

/-- Every command of a run on an empty store does what it must. -/
def RunRight (base : B → Type) (M : HeteroMap Name (Ty B) (Option ℕ))
    (cmds : List (Command base)) : Prop :=
  ∀ (c : Client base M) cmd, Attempts exec initial cmds c cmd → c.Right cmd

def RunMeets (base : B → Type) (M : HeteroMap Name (Ty B) (Option ℕ))
    (cmds : List (Command base)) : Prop :=
  ∀ (c : Client base M) cmd, Attempts exec initial cmds c cmd → c.Meets cmd

/-! ## The invariant of every run -/

structure Good (c : Client base M) : Prop where
  sound : c.store.Sound
  latest : ∀ t n, c.latest t n = c.store.read t n
  gets : ∀ g ∈ c.gets, c.store.deref g.1 g.2 ≠ none
  known : ∀ h ∈ c.handles, h.generation ≤ c.generation h.type h.name
  first : ∀ t n, c.store.get t n = none → c.generation t n = 0

omit [DecidableEq B] in
theorem good_initial : (initial : Client base M).Good where
  sound := Store.sound_initial
  latest := by simp [initial, Store.initial, Store.read, Store.get, M.find_empty]
  gets := by simp [initial]
  known := by simp [initial]
  first := by simp [initial]

variable {c c' : Client base M} {t : Ty B} {n : Name} {h : Handle B} {k : ℕ}

theorem handleAs_eq_some : c.handleAs k t = some h ↔ c.handles[k]? = some h ∧ h.type = t := by
  simp [handleAs, Option.filter_eq_some_iff]

omit [DecidableEq B] in
/-- The only handle to a name that holds nothing is the first one. -/
theorem Good.only (good : c.Good) (empty : c.store.get t n = none) (mem : h ∈ c.handles)
    (htype : h.type = t) (hname : h.name = n) : h = ⟨t, n, 0⟩ := by
  have first := good.known h mem
  subst htype hname
  rw [good.first _ _ empty, Nat.le_zero] at first
  cases h
  cases first
  rfl

theorem Good.wrote (good : c.Good) (v : Val base t) :
    (c.wrote (c.store.put t n v) t n v).Good where
  sound := good.sound.put v
  latest := by
    intro t' m
    simp only [Client.wrote]
    by_cases same : (t', m) = (t, n)
    · cases same
      rw [updateAt_self, good.sound.read_put_self v]
    · rw [updateAt_other _ _ same, good.sound.read_put_other v same, good.latest]
  gets := by
    intro g mem
    by_cases there : g.1 = t ∧ c.store.get t n = some g.2
    · obtain ⟨rfl, stored⟩ := there
      simp [Client.wrote, Store.deref_put_stored v stored]
    · rw [show (c.wrote (c.store.put t n v) t n v).store.deref g.1 g.2 = c.store.deref g.1 g.2 from
        good.sound.deref_put v (good.gets g mem) there]
      exact good.gets g mem
  known := good.known
  first := by
    intro t' m empty
    exact good.first t' m (good.sound.get_put_none empty).2

omit [DecidableEq B] in
theorem Good.existing (good : c.Good) :
    Good { c with handles := c.handles ++ [⟨t, n, c.generation t n⟩] } where
  sound := good.sound
  latest := good.latest
  gets := good.gets
  known := by
    intro h mem
    rcases List.mem_append.mp mem with old | new
    · exact good.known h old
    · rw [List.mem_singleton.mp new]
  first := good.first

theorem Good.made (good : c.Good) (v : Val base t) :
    (c.made (c.store.put t n v) t n v).Good where
  sound := (good.wrote v).sound
  latest := (good.wrote v).latest
  gets := (good.wrote v).gets
  known := by
    have later : c.generation t n ≤ (c.newHandle t n).generation := Nat.le_add_right _ _
    have raised (t' : Ty B) (m : Name) :
        c.generation t' m ≤ (c.made (c.store.put t n v) t n v).generation t' m := by
      simp only [Client.made, Client.wrote]
      by_cases same : (t', m) = (t, n)
      · cases same
        rwa [updateAt_self]
      · rw [updateAt_other _ _ same]
    intro h mem
    rcases List.mem_append.mp mem with old | new
    · exact (good.known h old).trans (raised _ _)
    · rw [List.mem_singleton.mp new]
      simp [Client.made, Client.wrote, newHandle]
  first := by
    intro t' m empty
    obtain ⟨elsewhere, was_empty⟩ := good.sound.get_put_none empty
    simp only [Client.made, Client.wrote]
    rw [updateAt_other _ _ elsewhere]
    exact good.first t' m was_empty

theorem increment_eq {i} (there : c.store.read .int n = some i) :
    c.store.increment n = some (c.store.put .int n i.succ) := by
  rw [Store.increment, there]
  rfl

theorem append_eq {lst v} (there : c.store.read (.list t) n = some lst) :
    c.store.append t n v = some (c.store.put (.list t) n (lst.pushBack v)) := by
  rw [Store.append_eq_put, there]
  rfl

/-- What a command leads to: something was made or written by a put, a handle, a
returned pointer or a copy was added, and nothing else. -/
theorem exec_cases {cmd : Command base} (ran : c.exec cmd = some c') :
    (∃ t n v, c' = c.made (c.store.put t n v) t n v) ∨
    (∃ t n v, c' = c.wrote (c.store.put t n v) t n v) ∨
    (∃ t n, c' = { c with handles := c.handles ++ [⟨t, n, c.generation t n⟩] }) ∨
    (∃ t n p, c.store.get t n = some p ∧ c' = { c with gets := c.gets ++ [(t, p)] }) ∨
    ∃ copy, c' = { c with copies := c.copies ++ [copy] } := by
  cases cmd with
  | newObject t n v =>
      cases ran
      exact Or.inl ⟨t, n, v, rfl⟩
  | createNew k t v =>
      obtain ⟨h, -, rfl⟩ := Option.map_eq_some_iff.mp ran
      exact Or.inl ⟨t, Store.createdName, v, rfl⟩
  | existingObject t n =>
      cases ran
      exact Or.inr (Or.inr (Or.inl ⟨t, n, rfl⟩))
  | put k t v =>
      obtain ⟨h, -, rfl⟩ := Option.map_eq_some_iff.mp ran
      exact Or.inr (Or.inl ⟨t, h.name, v, rfl⟩)
  | get k =>
      obtain ⟨h, -, ran⟩ := Option.bind_eq_some_iff.mp ran
      obtain ⟨p, stored, rfl⟩ := Option.map_eq_some_iff.mp ran
      exact Or.inr (Or.inr (Or.inr (Or.inl ⟨h.type, h.name, p, stored, rfl⟩)))
  | increment k =>
      obtain ⟨h, -, ran⟩ := Option.bind_eq_some_iff.mp ran
      obtain ⟨i, there, ran⟩ := Option.bind_eq_some_iff.mp ran
      rw [increment_eq there] at ran
      cases ran
      exact Or.inr (Or.inl ⟨.int, h.name, i.succ, rfl⟩)
  | append k t v =>
      obtain ⟨h, -, ran⟩ := Option.bind_eq_some_iff.mp ran
      obtain ⟨lst, there, ran⟩ := Option.bind_eq_some_iff.mp ran
      rw [append_eq there] at ran
      cases ran
      exact Or.inr (Or.inl ⟨.list t, h.name, lst.pushBack v, rfl⟩)
  | consistentRead k =>
      obtain ⟨h, -, ran⟩ := Option.bind_eq_some_iff.mp ran
      obtain ⟨v, -, rfl⟩ := Option.map_eq_some_iff.mp ran
      exact Or.inr (Or.inr (Or.inr (Or.inr ⟨⟨h.type, v⟩, rfl⟩)))

theorem Good.exec (good : c.Good) {cmd : Command base} (ran : c.exec cmd = some c') :
    c'.Good := by
  rcases exec_cases ran with ⟨t, n, v, rfl⟩ | ⟨t, n, v, rfl⟩ | ⟨t, n, rfl⟩ |
    ⟨t, n, p, stored, rfl⟩ | ⟨copy, rfl⟩
  · exact good.made v
  · exact good.wrote v
  · exact good.existing
  · refine { good with gets := ?_ }
    intro g mem
    rcases List.mem_append.mp mem with old | new
    · exact good.gets g old
    · rw [List.mem_singleton.mp new]
      exact (good.sound.there t n p stored).2
  · exact { good with }

/-! ## Each command is right exactly under its condition -/

/-- A put stays within the object of its handle exactly when it is harmless, provided no
handle of another object has the name while it holds nothing. -/
theorem Good.frame_iff (good : c.Good) {gen : ℕ} {v : Val base t}
    (store : c'.store = c.store.put t n v)
    (first : c.store.get t n = none → gen = 0) :
    Frame c c' ⟨t, n, gen⟩ ↔ c.Harmless t n gen v := by
  constructor
  · rintro ⟨handles, gets⟩ u there watched
    rcases watched with ⟨h', mem, rfl, rfl, other⟩ | ⟨g, mem, rfl, stored⟩
    · have same := handles h' mem other
      rw [store, good.sound.read_put_self v, there] at same
      exact Option.some.inj same
    · have same := gets g mem
      rw [store, Store.deref_put_stored v stored, ← Store.read_of_get stored, there] at same
      exact Option.some.inj same
  · intro harmless
    constructor
    · intro h' mem other
      by_cases same : (h'.type, h'.name) = (t, n)
      · cases same
        cases there : c.store.read h'.type h'.name with
        | none =>
            have empty := good.sound.read_none.mp there
            have only := good.only empty mem rfl rfl
            rw [first empty] at other
            exact absurd only other
        | some u =>
            rw [store, good.sound.read_put_self v,
              harmless u there (Or.inl ⟨h', mem, rfl, rfl, other⟩)]
      · rw [store, good.sound.read_put_other v same]
    · intro g mem
      by_cases there : g.1 = t ∧ c.store.get t n = some g.2
      · obtain ⟨rfl, stored⟩ := there
        have held := Store.read_of_get stored
        cases value : c.store.read g.1 n with
        | none => exact absurd (held.symm.trans value) (good.gets g mem)
        | some u =>
            rw [store, Store.deref_put_stored v stored, ← held, value,
              harmless u value (Or.inr ⟨g, mem, rfl, stored⟩)]
      · rw [store, good.sound.deref_put v (good.gets g mem) there]

omit [DecidableEq B] in
/-- Storing another value than the one read is harmless exactly when nothing watches. -/
theorem harmless_iff {gen : ℕ} {u v : Val base t} (there : c.store.read t n = some u)
    (changed : v ≠ u) : c.Harmless t n gen v ↔ ¬ c.Watched ⟨t, n, gen⟩ := by
  constructor
  · intro harmless watched
    exact changed (harmless u there watched)
  · intro unwatched _ _ watched
    exact absurd watched unwatched

omit [DecidableEq B] in
theorem Good.newHandle_first (good : c.Good) (empty : c.store.get t n = none) :
    (c.newHandle t n).generation = 0 := by
  simp [newHandle, empty, good.first t n empty]

omit [DecidableEq B] in
theorem Good.handle_first (good : c.Good) (mem : h ∈ c.handles)
    (empty : c.store.get h.type h.name = none) : h.generation = 0 := by
  rw [good.only empty mem rfl rfl]

theorem Good.right_newObject (good : c.Good) (v : Val base t) :
    c.Right (.newObject t n v) ↔ c.Meets (.newObject t n v) := by
  have exact_frame : Frame c (c.made (c.store.put t n v) t n v) (c.newHandle t n) ↔
      c.Harmless t n (c.newHandle t n).generation v := good.frame_iff rfl good.newHandle_first
  constructor
  · intro right
    exact exact_frame.mp (right _ rfl)
  · intro harmless c' ran
    cases ran
    exact exact_frame.mpr harmless

/-- The name `new` uses being free is all it takes. -/
theorem Good.right_createNew (good : c.Good) (v : Val base t) :
    c.Right (.createNew k t v) ↔ c.Meets (.createNew k t v) := by
  constructor
  · intro right has
    obtain ⟨h, there⟩ := Option.isSome_iff_exists.mp has
    exact (right _ (Option.map_eq_some_iff.mpr ⟨h, there, rfl⟩)).1
  · intro meets c' ran
    obtain ⟨h, there, rfl⟩ := Option.map_eq_some_iff.mp ran
    have free := meets (Option.isSome_iff_exists.mpr ⟨h, there⟩)
    have empty := good.sound.isValid_false.mp free t
    refine ⟨free, (good.frame_iff rfl good.newHandle_first).mpr ?_⟩
    intro u held
    rw [good.sound.read_none.mpr empty] at held
    cases held

/-- A write of `v` through the handle at `k`. -/
theorem Good.frame_wrote (good : c.Good) (there : c.handleAs k t = some h) (v : Val base t) :
    Frame c (c.wrote (c.store.put t h.name v) t h.name v) h ↔
      c.Harmless t h.name h.generation v := by
  obtain ⟨at_k, rfl⟩ := handleAs_eq_some.mp there
  have mem : h ∈ c.handles := List.mem_of_getElem? at_k
  exact good.frame_iff rfl (good.handle_first mem)

theorem handleAs_unique {h' : Handle B} (there : c.handleAs k t = some h)
    (at_k : c.handles[k]? = some h') : h' = h :=
  Option.some.inj (at_k.symm.trans (handleAs_eq_some.mp there).1)

theorem Good.right_put (good : c.Good) (v : Val base t) :
    c.Right (.put k t v) ↔ c.Meets (.put k t v) := by
  constructor
  · intro right h there
    apply (good.frame_wrote there v).mp
    exact right _ (Option.map_eq_some_iff.mpr ⟨h, there, rfl⟩) h (handleAs_eq_some.mp there).1
  · intro meets c' ran h' at_k
    obtain ⟨h, there, rfl⟩ := Option.map_eq_some_iff.mp ran
    rw [handleAs_unique there at_k]
    exact (good.frame_wrote there v).mpr (meets h there)

/-- A command that changes the value read through its handle stays within its object
exactly when nothing else leads to that value. -/
theorem Good.frame_update_iff (good : c.Good) {next : Val base t → Val base t}
    (changes : ∀ u, next u ≠ u) {outcome : Option (Client base M)}
    (steps : ∀ c', outcome = some c' ↔ ∃ h u, c.handleAs k t = some h ∧
      c.store.read t h.name = some u ∧
        c' = c.wrote (c.store.put t h.name (next u)) t h.name (next u)) :
    (∀ c', outcome = some c' → ∀ h, c.handles[k]? = some h → Frame c c' h) ↔
      ∀ h u, c.handleAs k t = some h → c.store.read t h.name = some u → ¬ c.Watched h := by
  have exact_frame {h u} (there : c.handleAs k t = some h) (held : c.store.read t h.name = some u) :
      Frame c (c.wrote (c.store.put t h.name (next u)) t h.name (next u)) h ↔ ¬ c.Watched h := by
    rw [good.frame_wrote there, harmless_iff held (changes u), ← (handleAs_eq_some.mp there).2]
  constructor
  · intro right h u there held
    apply (exact_frame there held).mp
    exact right _ ((steps _).mpr ⟨h, u, there, held, rfl⟩) h (handleAs_eq_some.mp there).1
  · intro unwatched c' ran h' at_k
    obtain ⟨h, u, there, held, rfl⟩ := (steps c').mp ran
    rw [handleAs_unique there at_k]
    exact (exact_frame there held).mpr (unwatched h u there held)

theorem Good.right_increment (good : c.Good) :
    c.Right (.increment k) ↔ c.Meets (.increment k) := by
  apply good.frame_update_iff fun i => i.succ_ne
  intro c'
  constructor
  · intro ran
    obtain ⟨h, there, ran⟩ := Option.bind_eq_some_iff.mp ran
    obtain ⟨i, held, ran⟩ := Option.bind_eq_some_iff.mp ran
    rw [increment_eq held] at ran
    exact ⟨h, i, there, held, (Option.some.inj ran).symm⟩
  · rintro ⟨h, i, there, held, rfl⟩
    simp only [Client.exec, there, held, Option.bind_some, increment_eq held, Option.map_some]

theorem Good.right_append (good : c.Good) (v : Val base t) :
    c.Right (.append k t v) ↔ c.Meets (.append k t v) := by
  apply good.frame_update_iff fun lst => lst.pushBack_ne v
  intro c'
  constructor
  · intro ran
    obtain ⟨h, there, ran⟩ := Option.bind_eq_some_iff.mp ran
    obtain ⟨lst, held, ran⟩ := Option.bind_eq_some_iff.mp ran
    rw [append_eq held] at ran
    exact ⟨h, lst, there, held, (Option.some.inj ran).symm⟩
  · rintro ⟨h, lst, there, held, rfl⟩
    simp only [Client.exec, there, held, Option.bind_some, append_eq held, Option.map_some]

theorem Good.right_get (good : c.Good) : c.Right (.get k) := by
  intro c' ran h v at_k latest
  obtain ⟨h', at_k', ran⟩ := Option.bind_eq_some_iff.mp ran
  obtain ⟨p, stored, rfl⟩ := Option.map_eq_some_iff.mp ran
  cases Option.some.inj (at_k.symm.trans at_k')
  refine ⟨p, rfl, ?_⟩
  calc
    c.store.deref h.type p = c.store.read h.type h.name := (Store.read_of_get stored).symm
    _ = some v := by rw [← good.latest, latest]

theorem Good.right_consistentRead (good : c.Good) : c.Right (.consistentRead k) := by
  intro c' ran h v at_k latest
  obtain ⟨h', at_k', ran⟩ := Option.bind_eq_some_iff.mp ran
  obtain ⟨u, copied, rfl⟩ := Option.map_eq_some_iff.mp ran
  cases Option.some.inj (at_k.symm.trans at_k')
  have same : some u = some v := by
    calc
      some u = c.store.read h.type h.name := copied.symm
      _ = some v := by rw [← good.latest, latest]
  cases same
  rfl

theorem right_existingObject : c.Right (.existingObject t n) := by
  intro c' ran
  cases ran
  exact ⟨fun _ _ _ => rfl, fun _ _ => rfl⟩

theorem Good.right_iff (good : c.Good) (cmd : Command base) : c.Right cmd ↔ c.Meets cmd := by
  cases cmd with
  | newObject t n v => exact good.right_newObject v
  | createNew k t v => exact good.right_createNew v
  | existingObject t n => exact iff_of_true right_existingObject trivial
  | put k t v => exact good.right_put v
  | get k => exact iff_of_true good.right_get trivial
  | increment k => exact good.right_increment
  | append k t v => exact good.right_append v
  | consistentRead k => exact iff_of_true good.right_consistentRead trivial

end Client

open Client

/-- For every sequence of commands: objects stay separate and reads stable exactly when
`new` only comes while nothing is stored under its one name, and no write changes a value
that a handle of another object or an earlier `get` leads to. -/
theorem run_right_iff (base : B → Type) (M : HeteroMap Name (Ty B) (Option ℕ))
    (cmds : List (Command base)) : RunRight base M cmds ↔ RunMeets base M cmds := by
  apply attempts_iff_attempts Good Right Meets good_initial
  · intro c cmd c' ran good _
    exact good.exec ran
  · intro c cmd good
    exact good.right_iff cmd

/-! ## Two runs that go wrong -/

/-- A store of integers only. -/
def noBase : Empty → Type := nofun

/-- Two objects made by `new` through the handle of a third one. -/
def newTwice : List (Command noBase) :=
  [.newObject .int 1 (5 : ℤ), .createNew 0 .int (7 : ℤ), .createNew 0 .int (8 : ℤ)]

/-- A value is read, and then another one is put in its place. -/
def getThenPut : List (Command noBase) :=
  [.newObject .int 1 (5 : ℤ), .get 0, .put 0 .int (6 : ℤ)]

/-- The second object gets the name of the first, and the value read becomes the value put. -/
theorem newTwice_getThenPut_wrong :
    ¬ RunRight noBase (HeteroMap.entries Name (Ty Empty) (Option ℕ)) newTwice ∧
    ¬ RunRight noBase (HeteroMap.entries Name (Ty Empty) (Option ℕ)) getThenPut := by
  constructor
  · intro right
    have free := (right _ _ ⟨newTwice.take 2, [], rfl, rfl⟩ _ rfl).1
    exact absurd free (by decide)
  · intro right
    have stable := (right _ _ ⟨getThenPut.take 2, [], rfl, rfl⟩ _ rfl ⟨.int, 1, 0⟩ rfl).2
    have same := stable (.int, 0) (List.mem_singleton.mpr rfl)
    have kept : (6 : ℤ) = 5 := Option.some.inj same
    exact absurd kept (by decide)

end MixT.TestingStore
