import Mathlib.Algebra.Order.Ring.Int
import Mathlib.Data.List.Chain
import MixT.Pgsql.ClientClock

/-!
# The buffer of an object

A `GSQLObject` keeps the bytes of its row in a buffer that is allocated once. The
object stores how many bytes are in use, never how many were allocated, and a
resize compares the new size with the one in use.
-/

namespace MixT.Pgsql

inductive Table
  | blobStore
  | intStore
  deriving DecidableEq, Repr

namespace ObjectBuffer

def sizeofInt : ℕ := 4

/-- A `size_t` made from an integer. -/
def sizeT (n : ℤ) : ℕ := (n % 2 ^ 64).toNat

/-- The cast of a `size_t` to `int`. -/
def castInt (n : ℕ) : ℤ :=
  if n % 2 ^ 32 < 2 ^ 31 then (n % 2 ^ 32 : ℕ) else (n % 2 ^ 32 : ℕ) - 2 ^ 32

/-- No object is larger than half the address space; `malloc` gives null for more. -/
def maxObjectSize : ℕ := 2 ^ 63

def malloc (n : ℕ) : Option ℕ := if n < maxObjectSize then some n else none

/-- A serialized value. The table is chosen by the type, and the int table holds ints. -/
structure Contents (t : Table) where
  bytes : ℕ
  inMemory : bytes < maxObjectSize
  int : t = .intStore → bytes = sizeofInt

/-- How an object is made. -/
inductive Origin (t : Table)
  /-- A row that is inserted now. -/
  | named (c : Contents t)
  /-- A row of which only the name is known. -/
  | existing
  /-- Read from bytes, with the size the sender recorded as an `int`. -/
  | deserialized (size : ℤ) (range : -2 ^ 31 ≤ size ∧ size < 2 ^ 31)
      (int : t = .intStore → size = sizeofInt)

/-- A load with the row it reads, or a put. -/
inductive Op (t : Table)
  | load (sameVersion : Bool) (c : Contents t)
  | put (c : Contents t)

/-- What is compiled in: the assertions, and the zero fills under `whendebug`. -/
structure Build where
  asserts : Bool
  zeroFills : Bool

/-- What happens to a buffer. -/
inductive Event
  /-- Bytes are written up to a position in so many allocated ones. -/
  | write (last allocated : ℕ)
  /-- The assertion in `resize_buffer`. -/
  | resizeAssert (holds : Bool)
  /-- The size in use after contents were loaded or put. -/
  | recorded (size contents : ℕ)

def Event.Sound : Event → Prop
  | write last allocated => last ≤ allocated
  | resizeAssert holds => holds = true
  | recorded size contents => size = contents

/-- The allocated bytes, if there is a buffer, and the recorded size. -/
structure Buffer where
  buf : Option ℕ
  size : ℕ

namespace Buffer

def capacity (o : Buffer) : ℕ := o.buf.getD 0

def write (o : Buffer) (last : ℕ) : Event := .write last o.capacity

/-- A zero fill up to a position. -/
def bzero (b : Build) (o : Buffer) (last : ℕ) : List Event :=
  if b.zeroFills then [o.write last] else []

end Buffer

variable {t : Table}

/-- What an action on an object did and the object after it, with `none` once an assertion
failed or an exception was thrown. -/
structure Outcome where
  events : List Event
  after : Option Buffer

namespace Outcome

def andThen (r : Outcome) (next : Buffer → Outcome) : Outcome :=
  match r.after with
  | none => r
  | some o => ⟨r.events ++ (next o).events, (next o).after⟩

/-- `assert`, of no effect where assertions are left out. -/
def assertThat (b : Build) (holds : Bool) (o : Buffer) : Outcome :=
  ⟨[], if b.asserts && !holds then none else some o⟩

/-- Every event is sound. -/
def Sound (r : Outcome) : Prop := ∀ e ∈ r.events, e.Sound

end Outcome

def resizeBuffer (b : Build) (o : Buffer) (newsize : ℕ) : Outcome :=
  let bufSize := max 2048 newsize
  match o.buf with
  | none =>
      let o' : Buffer := ⟨malloc bufSize, newsize⟩
      ⟨o'.bzero b bufSize ++ if newsize < bufSize then o'.bzero b bufSize else [], some o'⟩
  | some _ =>
      let holds := decide (newsize ≤ o.size ∨ newsize ≤ 2048)
      Outcome.andThen ⟨[.resizeAssert holds], (Outcome.assertThat b holds o).after⟩ fun o =>
        ⟨if newsize < bufSize then o.bzero b bufSize else [], some { o with size := newsize }⟩

/-- `if (!i->buf1)` before the copy. -/
def ensureBuffer (o : Buffer) : Buffer :=
  match o.buf with
  | none => { o with buf := malloc (max 2048 o.size) }
  | some _ => o

/-- The row's data are copied into the buffer. -/
def copyRow (b : Build) (o : Buffer) (c : Contents t) : Outcome :=
  match t with
  | .blobStore =>
      (resizeBuffer b o c.bytes).andThen fun o =>
        (Outcome.assertThat b (1 ≤ o.size) o).andThen fun o =>
          let o := ensureBuffer o
          ⟨o.bzero b (max 2048 o.size) ++ [o.write o.size, .recorded o.size c.bytes], some o⟩
  | .intStore => ⟨[o.write sizeofInt, .recorded o.size c.bytes], some o⟩

/-- `GSQLObject::load`. -/
def load (b : Build) (o : Buffer) (sameVersion : Bool) (c : Contents t) : Outcome :=
  if maxVerCheckSize ≤ o.size && sameVersion then ⟨[], some o⟩ else copyRow b o c

/-- `SQLObject::put` up to the update of the row. -/
def put (b : Build) (o : Buffer) (c : Contents t) : Outcome :=
  (resizeBuffer b o c.bytes).andThen fun o =>
    ⟨[o.write c.bytes, .recorded o.size c.bytes], some o⟩

def step (b : Build) (o : Buffer) : Op t → Outcome
  | .load sameVersion c => load b o sameVersion c
  | .put c => put b o c

/-- The constructors. An inserted row must have a first byte. -/
def create (b : Build) : Origin t → Outcome
  | .named c =>
      let o : Buffer := ⟨malloc (max 2048 c.bytes), sizeT (castInt c.bytes)⟩
      Outcome.andThen ⟨o.bzero b (max 2048 o.size), if c.bytes = 0 then none else some o⟩ fun o =>
        ⟨[o.write c.bytes, .recorded o.size c.bytes], some o⟩
  | .existing =>
      match t with
      | .intStore => ⟨[], some ⟨malloc sizeofInt, sizeofInt⟩⟩
      | .blobStore => ⟨[], some ⟨none, sizeT (-1)⟩⟩
  | .deserialized size _ _ =>
      if size = -1 then ⟨[], some ⟨none, sizeT (-1)⟩⟩
      else
        let o : Buffer := ⟨malloc (max 2048 (sizeT size)), sizeT size⟩
        ⟨o.bzero b (max 2048 o.size), some o⟩

/-- The operations one after another. -/
def steps (b : Build) (o : Buffer) : List (Op t) → Outcome
  | [] => ⟨[], some o⟩
  | op :: ops => (step b o op).andThen fun o => steps b o ops

def run (b : Build) (origin : Origin t) (ops : List (Op t)) : Outcome :=
  (create b origin).andThen fun o => steps b o ops

/-- No write passes the end of the buffer, the assertion holds, and the size in use is that of
the contents. -/
def Safe (b : Build) (origin : Origin t) (ops : List (Op t)) : Prop := (run b origin ops).Sound

/-- The sizes of the contents that reach the buffer, from the size in use before, if known. A
large object whose version is the same is not read again, and an empty row fails an
assertion. -/
def fetched (b : Build) : Option ℕ → List (Op t) → List ℕ
  | _, [] => []
  | last, .load sameVersion c :: ops =>
      if last.all (maxVerCheckSize ≤ ·) && sameVersion then fetched b last ops
      else c.bytes :: if b.asserts && c.bytes = 0 && t = .blobStore then [] else
        fetched b (some c.bytes) ops
  | _, .put c :: ops => c.bytes :: fetched b (some c.bytes) ops

/-- Contents fit after others: they are no larger, or small. -/
def FitsAfter (before after : ℕ) : Prop := after ≤ before ∨ after ≤ 2048

/-- Each contents fit after those before. -/
def Shrinks (b : Build) (last : Option ℕ) (ops : List (Op t)) : Prop :=
  (last.toList ++ fetched b last ops).IsChain FitsAfter

def Op.isPut : Op t → Bool
  | load _ _ => false
  | put _ => true

/-- The size in use after a constructor, if one is known. -/
def Origin.size : Origin t → Option ℕ
  | named c => some c.bytes
  | existing => if t = .intStore then some sizeofInt else none
  | deserialized size _ _ => if 0 ≤ size then some size.toNat else none

/-- What the constructors can take. Zero fills assume 2048 bytes: an int row found by its name
has 4, and a negative size none at all. -/
def Origin.Allowed (b : Build) (ops : List (Op t)) : Origin t → Prop
  | named c => c.bytes < 2 ^ 31
  | existing => b.zeroFills = true → t = .intStore → ∀ op ∈ ops, op.isPut = false
  | deserialized size _ _ => b.zeroFills = true → -1 ≤ size

/-- An empty row is not inserted, the constructor throws. -/
def Origin.Throws : Origin t → Prop
  | named c => c.bytes = 0
  | existing => False
  | deserialized _ _ _ => False

namespace Outcome

theorem andThen_none {r : Outcome} (h : r.after = none) (next : Buffer → Outcome) :
    r.andThen next = r := by
  simp [andThen, h]

theorem andThen_some {r : Outcome} {o : Buffer} (h : r.after = some o)
    (next : Buffer → Outcome) :
    r.andThen next = ⟨r.events ++ (next o).events, (next o).after⟩ := by
  simp [andThen, h]

theorem sound_andThen {r : Outcome} {o : Buffer} (h : r.after = some o)
    (next : Buffer → Outcome) : (r.andThen next).Sound ↔ r.Sound ∧ (next o).Sound := by
  simp [andThen_some h, Sound, or_imp, forall_and]

/-- What is done next cannot repair an unsound event. -/
theorem Sound.of_andThen {r : Outcome} {next : Buffer → Outcome}
    (h : (r.andThen next).Sound) : r.Sound := by
  intro e he
  cases after : r.after with
  | none => exact h e (by rwa [andThen_none after])
  | some o =>
      apply h e
      rw [andThen_some after]
      exact List.mem_append_left _ he

end Outcome

/-- The buffer has room for the size in use and, but for an int row found by its name, for
2048 bytes. Without a known size there is no buffer and the next load reads the row. -/
structure Tracks (o : Buffer) (last : Option ℕ) (small : Bool) : Prop where
  unknown : last = none → small = false ∧ o.buf = none ∧ maxVerCheckSize ≤ o.size
  known : ∀ n, last = some n → o.size = n ∧ ∃ cap, o.buf = some cap ∧ n ≤ cap ∧
    if small then n = sizeofInt ∧ cap = sizeofInt else 2048 ≤ cap

theorem malloc_eq {n : ℕ} (h : n < maxObjectSize) : malloc (max 2048 n) = some (max 2048 n) := by
  have : max 2048 n < maxObjectSize := max_lt (by simp [maxObjectSize]) h
  simp [malloc, this]

theorem bzero_sound (b : Build) (o : Buffer) (last : ℕ) :
    (∀ e ∈ o.bzero b last, e.Sound) ↔ (b.zeroFills = true → last ≤ o.capacity) := by
  cases h : b.zeroFills <;> simp [Buffer.bzero, h, Buffer.write, Event.Sound]

theorem Tracks.bzero_sound {o : Buffer} {n : ℕ} {small : Bool}
    (h : Tracks o (some n) small) (b : Build) (newsize : ℕ) (hnew : newsize ≤ max 2048 n)
    (above : small = true → 5 ≤ newsize) :
    (∀ e ∈ o.bzero b newsize, e.Sound) ↔ (b.zeroFills = true → small = false) := by
  obtain ⟨-, cap, hcap, room, fits⟩ := h.known n rfl
  rw [ObjectBuffer.bzero_sound, Buffer.capacity, hcap, Option.getD_some]
  apply imp_congr_right
  intro _
  cases small with
  | false =>
      simp only [Bool.false_eq_true, if_false] at fits
      simp only [iff_true]
      omega
  | true =>
      simp only [if_true, sizeofInt] at fits
      have := above rfl
      simp only [Bool.true_eq_false, iff_false]
      omega

/-- A resize is sound when the new size fits after the old one and no zero fill passes an int. -/
theorem resizeBuffer_spec {o : Buffer} {last : Option ℕ} {small : Bool} (h : Tracks o last small)
    (b : Build) {n : ℕ} (inMemory : n < maxObjectSize)
    (int : small = true → n = sizeofInt) :
    ((resizeBuffer b o n).Sound ↔
      (∀ m, last = some m → FitsAfter m n) ∧ (b.zeroFills = true → small = false)) ∧
    ((resizeBuffer b o n).Sound →
      ∃ o', (resizeBuffer b o n).after = some o' ∧ Tracks o' (some n) small) := by
  cases last with
  | none =>
      obtain ⟨rfl, hbuf, -⟩ := h.unknown rfl
      have tracks : Tracks ⟨malloc (max 2048 n), n⟩ (some n) false := by
        refine ⟨by simp, ?_⟩
        rintro m ⟨⟩
        exact ⟨rfl, max 2048 n, malloc_eq inMemory, le_max_right _ _, le_max_left _ _⟩
      have fill := (tracks.bzero_sound b (max 2048 n) le_rfl (by simp)).mpr fun _ => rfl
      have sound : (resizeBuffer b o n).Sound := by
        intro e he
        simp only [resizeBuffer, hbuf, List.mem_append] at he
        obtain he | he := he
        · exact fill e he
        · split at he
          · exact fill e he
          · simp at he
      refine ⟨iff_of_true sound ⟨by simp, fun _ => rfl⟩, fun _ => ⟨_, ?_, tracks⟩⟩
      simp only [resizeBuffer, hbuf]
  | some m =>
      obtain ⟨rfl, cap, hcap, room, fits⟩ := h.known m rfl
      by_cases fitsAfter : FitsAfter o.size n
      · have holds : decide (n ≤ o.size ∨ n ≤ 2048) = true := decide_eq_true fitsAfter
        have resized : resizeBuffer b o n = ⟨.resizeAssert true ::
            (if n < max 2048 n then o.bzero b (max 2048 n) else []), some ⟨o.buf, n⟩⟩ := by
          simp [resizeBuffer, hcap, holds, Outcome.assertThat, Outcome.andThen]
        have larger : max 2048 n ≤ max 2048 o.size := by
          simp only [FitsAfter] at fitsAfter
          omega
        have fill := h.bzero_sound b (max 2048 n) larger fun _ => by omega
        have sound : (resizeBuffer b o n).Sound ↔ (b.zeroFills = true → small = false) := by
          simp only [resized, Outcome.Sound, List.forall_mem_cons, Event.Sound, true_and]
          split
          · exact fill
          · cases small with
            | false => simp
            | true =>
                have := int rfl
                simp only [sizeofInt] at this
                omega
        refine ⟨sound.trans (by simp [fitsAfter]), fun _ => ⟨⟨o.buf, n⟩, by rw [resized], ?_⟩⟩
        refine ⟨by simp, ?_⟩
        rintro k ⟨⟩
        refine ⟨rfl, cap, hcap, ?_⟩
        cases small with
        | false =>
            simp only [FitsAfter, Bool.false_eq_true, if_false] at fitsAfter fits ⊢
            omega
        | true =>
            simp only [if_true] at fits ⊢
            have := int rfl
            omega
      · have holds : decide (n ≤ o.size ∨ n ≤ 2048) = false := decide_eq_false fitsAfter
        have unsound : ¬ (resizeBuffer b o n).Sound := by
          intro sound
          simp only [resizeBuffer, hcap, holds] at sound
          have := sound.of_andThen (.resizeAssert false) (by simp)
          simp [Event.Sound] at this
        refine ⟨iff_of_false unsound ?_, fun sound => absurd sound unsound⟩
        rintro ⟨fits, -⟩
        exact fitsAfter (fits _ rfl)

theorem Tracks.write_sound {o : Buffer} {n : ℕ} {small : Bool} (h : Tracks o (some n) small) :
    (o.write n).Sound := by
  obtain ⟨-, cap, hcap, room, -⟩ := h.known n rfl
  simpa [Buffer.write, Event.Sound, Buffer.capacity, hcap] using room

theorem Tracks.size_eq {o : Buffer} {n : ℕ} {small : Bool} (h : Tracks o (some n) small) :
    o.size = n := (h.known n rfl).1

theorem put_spec {o : Buffer} {last : Option ℕ} {small : Bool} (h : Tracks o last small)
    (b : Build) (c : Contents t) (int : small = true → t = .intStore) :
    ((put b o c).Sound ↔
      (∀ m, last = some m → FitsAfter m c.bytes) ∧ (b.zeroFills = true → small = false)) ∧
    ((put b o c).Sound → ∃ o', (put b o c).after = some o' ∧ Tracks o' (some c.bytes) small) := by
  obtain ⟨iff, next⟩ := resizeBuffer_spec h b c.inMemory fun hs => c.int (int hs)
  by_cases sound : (resizeBuffer b o c.bytes).Sound
  · obtain ⟨o', after, tracks⟩ := next sound
    have copied : (put b o c).Sound := by
      rw [put, Outcome.sound_andThen after]
      refine ⟨sound, ?_⟩
      simp only [Outcome.Sound, List.forall_mem_cons, tracks.write_sound, true_and]
      simp [Event.Sound, tracks.size_eq]
    refine ⟨iff_of_true copied (iff.mp sound), fun _ => ⟨o', ?_, tracks⟩⟩
    rw [put, Outcome.andThen_some after]
  · have unsound : ¬ (put b o c).Sound := fun copied => sound copied.of_andThen
    exact ⟨iff_of_false unsound fun fits => sound (iff.mpr fits),
      fun copied => absurd copied unsound⟩

/-- The run ends with the copy of an empty row where assertions are compiled in. -/
def StopsAt (b : Build) (c : Contents t) : Prop :=
  b.asserts = true ∧ c.bytes = 0 ∧ t = .blobStore

theorem copyRow_int_spec {o : Buffer} {small : Bool} (b : Build) (c : Contents .intStore)
    (h : Tracks o (some sizeofInt) small) :
    (copyRow b o c).Sound ∧ (copyRow b o c).after = some o ∧ c.bytes = sizeofInt := by
  have same : c.bytes = sizeofInt := c.int rfl
  refine ⟨?_, rfl, same⟩
  simp only [copyRow, Outcome.Sound, List.forall_mem_cons, h.write_sound, true_and]
  simp [Event.Sound, h.size_eq, same]

theorem copyRow_blob_spec {o : Buffer} {last : Option ℕ} (b : Build) (c : Contents .blobStore)
    (h : Tracks o last false) :
    ((copyRow b o c).Sound ↔ ∀ m, last = some m → FitsAfter m c.bytes) ∧
    ((copyRow b o c).Sound → (StopsAt b c ∧ (copyRow b o c).after = none) ∨
      (¬ StopsAt b c ∧
        ∃ o', (copyRow b o c).after = some o' ∧ Tracks o' (some c.bytes) false)) := by
  obtain ⟨iff, next⟩ := resizeBuffer_spec h b c.inMemory (by simp)
  simp only [implies_true, and_true] at iff
  by_cases sound : (resizeBuffer b o c.bytes).Sound
  · obtain ⟨o', after, tracks⟩ := next sound
    have fill := (tracks.bzero_sound b (max 2048 c.bytes) le_rfl (by simp)).mpr fun _ => rfl
    have buffer : ensureBuffer o' = o' := by
      obtain ⟨-, cap, hcap, -⟩ := tracks.known _ rfl
      simp only [ensureBuffer, hcap]
    by_cases stops : StopsAt b c
    · have failed : (Outcome.assertThat b (1 ≤ o'.size) o').after = none := by
        simp [Outcome.assertThat, stops.1, tracks.size_eq, stops.2.1]
      have copied : copyRow b o c = ⟨(resizeBuffer b o c.bytes).events, none⟩ := by
        rw [copyRow, Outcome.andThen_some after, Outcome.andThen_none failed, failed]
        simp [Outcome.assertThat]
      rw [copied]
      exact ⟨iff_of_true sound (iff.mp sound), fun _ => Or.inl ⟨stops, rfl⟩⟩
    · have passed : (Outcome.assertThat b (1 ≤ o'.size) o').after = some o' := by
        have nonempty : b.asserts = true → ¬ c.bytes = 0 := fun h₁ h₂ => stops ⟨h₁, h₂, rfl⟩
        simp only [Outcome.assertThat, tracks.size_eq, Bool.and_eq_true, Bool.not_eq_true',
          decide_eq_false_iff_not]
        exact if_neg fun failed => nonempty failed.1 (by omega)
      have copied : (copyRow b o c).Sound := by
        rw [copyRow, Outcome.sound_andThen after, Outcome.sound_andThen passed]
        refine ⟨sound, by simp [Outcome.assertThat, Outcome.Sound], ?_⟩
        simp only [buffer, tracks.size_eq, Outcome.Sound, List.mem_append]
        rintro e (filled | written)
        · exact fill e filled
        · obtain rfl | written := List.mem_cons.mp written
          · exact tracks.write_sound
          · obtain rfl := List.mem_singleton.mp written
            exact rfl
      refine ⟨iff_of_true copied (iff.mp sound), fun _ => Or.inr ⟨stops, o', ?_, tracks⟩⟩
      rw [copyRow, Outcome.andThen_some after, Outcome.andThen_some passed]
      simp only [buffer]
  · have unsound : ¬ (copyRow b o c).Sound := fun copied => sound copied.of_andThen
    exact ⟨iff_of_false unsound fun fits => sound (iff.mpr fits),
      fun copied => absurd copied unsound⟩

/-- A copied row, in either table. -/
theorem copyRow_spec {o : Buffer} {last : Option ℕ} {small : Bool} (b : Build) (c : Contents t)
    (h : Tracks o last small) (isInt : small = true → t = .intStore)
    (int : t = .intStore → last = some sizeofInt) :
    ((copyRow b o c).Sound ↔ ∀ m, last = some m → FitsAfter m c.bytes) ∧
    ((copyRow b o c).Sound → (StopsAt b c ∧ (copyRow b o c).after = none) ∨
      (¬ StopsAt b c ∧
        ∃ o', (copyRow b o c).after = some o' ∧ Tracks o' (some c.bytes) small)) := by
  cases t with
  | intStore =>
      obtain rfl := int rfl
      obtain ⟨sound, after, same⟩ := copyRow_int_spec b c h
      refine ⟨iff_of_true sound ?_, fun _ => Or.inr ⟨by simp [StopsAt], o, after, same ▸ h⟩⟩
      rintro m ⟨⟩
      exact Or.inl same.le
  | blobStore =>
      obtain rfl : small = false := by simpa using isInt
      exact copyRow_blob_spec b c h

/-- A chain from the known size, one contents further. -/
theorem shrinks_cons (last : Option ℕ) (n : ℕ) (rest : List ℕ) :
    (last.toList ++ n :: rest).IsChain FitsAfter ↔
      (∀ m, last = some m → FitsAfter m n) ∧ ((some n).toList ++ rest).IsChain FitsAfter := by
  cases last with
  | none => simp
  | some m => simp [List.isChain_cons_cons]

theorem Tracks.versionChecked {o : Buffer} {last : Option ℕ} {small : Bool}
    (h : Tracks o last small) :
    decide (maxVerCheckSize ≤ o.size) = last.all (decide <| maxVerCheckSize ≤ ·) := by
  cases last with
  | none => simp [(h.unknown rfl).2.2]
  | some n => simp [(h.known n rfl).1]

/-- The operations are sound when each contents fit after those before and no put fills an
int. -/
theorem steps_sound_iff (b : Build) (ops : List (Op t)) {o : Buffer} {last : Option ℕ}
    {small : Bool} (h : Tracks o last small) (isInt : small = true → t = .intStore)
    (int : t = .intStore → last = some sizeofInt) :
    (steps b o ops).Sound ↔ Shrinks b last ops ∧
      (b.zeroFills = true → small = true → ∀ op ∈ ops, op.isPut = false) := by
  induction ops generalizing o last with
  | nil =>
      refine iff_of_true (by simp [steps, Outcome.Sound]) ⟨?_, by simp⟩
      cases last <;> simp [Shrinks, fetched]
  | cons op ops ih =>
      cases op with
      | load sameVersion c =>
          have noPut : (b.zeroFills = true → small = true →
              ∀ op ∈ Op.load sameVersion c :: ops, op.isPut = false) ↔
              (b.zeroFills = true → small = true → ∀ op ∈ ops, op.isPut = false) := by
            simp [Op.isPut]
          rw [noPut]
          by_cases served : (last.all (decide <| maxVerCheckSize ≤ ·) && sameVersion) = true
          · have kept : load b o sameVersion c = ⟨[], some o⟩ := by
              rw [load, h.versionChecked, if_pos served]
            have chain : fetched b last (.load sameVersion c :: ops) = fetched b last ops := by
              rw [fetched, if_pos served]
            rw [steps, step, kept, Outcome.sound_andThen rfl, ih h int, Shrinks, Shrinks, chain]
            simp [Outcome.Sound]
          · have copied : load b o sameVersion c = copyRow b o c := by
              rw [load, h.versionChecked, if_neg served]
            rw [steps, step, copied]
            obtain ⟨iff, next⟩ := copyRow_spec b c h isInt int
            rw [Shrinks, fetched, if_neg served, shrinks_cons]
            by_cases sound : (copyRow b o c).Sound
            · obtain ⟨stops, after⟩ | ⟨goesOn, o', after, tracks⟩ := next sound
              · have isBlob : t = .blobStore := stops.2.2
                have notSmall : small = true → False := fun hs => by simp [isInt hs] at isBlob
                rw [Outcome.andThen_none after, if_pos (by simpa [StopsAt, and_assoc] using stops)]
                refine iff_of_true sound ⟨⟨iff.mp sound, by simp⟩, fun _ hs => ?_⟩
                exact (notSmall hs).elim
              · rw [Outcome.sound_andThen after, ih tracks fun isInt => by rw [c.int isInt],
                  if_neg (by simpa [StopsAt, and_assoc] using goesOn)]
                have fits := iff.mp sound
                simp only [sound, true_and, Shrinks]
                tauto
            · apply iff_of_false
              · exact fun all => sound all.of_andThen
              · exact fun all => sound (iff.mpr all.1.1)
      | put c =>
          obtain ⟨iff, next⟩ := put_spec h b c isInt
          have chain : Shrinks b last (.put c :: ops) ↔ _ :=
            shrinks_cons last c.bytes (fetched b (some c.bytes) ops)
          rw [chain]
          by_cases sound : (put b o c).Sound
          · obtain ⟨o', after, tracks⟩ := next sound
            have rest := ih tracks fun isInt => by rw [c.int isInt]
            rw [steps, step, Outcome.sound_andThen after, rest, Shrinks]
            obtain ⟨fits, unfilled⟩ := iff.mp sound
            simp only [sound, true_and, List.forall_mem_cons, Op.isPut]
            constructor
            · rintro ⟨later, noPut⟩
              refine ⟨⟨fits, later⟩, fun fills isSmall => ?_⟩
              simp [unfilled fills] at isSmall
            · rintro ⟨⟨-, later⟩, noPut⟩
              exact ⟨later, fun fills isSmall => (noPut fills isSmall).2⟩
          · apply iff_of_false
            · exact fun all => sound all.of_andThen
            · rintro ⟨⟨fits, -⟩, noPut⟩
              apply sound
              apply iff.mpr
              refine ⟨fits, fun fills => Bool.eq_false_iff.mpr fun isSmall => ?_⟩
              have := noPut fills isSmall _ (List.mem_cons_self ..)
              simp [Op.isPut] at this

/-- The size survives the cast to `int` exactly below 2 GiB. -/
theorem sizeT_castInt {n : ℕ} (h : n < maxObjectSize) :
    sizeT (castInt n) = n ↔ n < 2 ^ 31 := by
  rw [maxObjectSize] at h
  rw [castInt]
  split
  · rw [sizeT]
    omega
  · rw [sizeT]
    omega

theorem unknown_tracks {buf : Option ℕ} {size : ℕ} (null : buf = none)
    (large : maxVerCheckSize ≤ size) : Tracks ⟨buf, size⟩ none false :=
  ⟨fun _ => ⟨rfl, null, large⟩, by simp⟩

theorem allocated_tracks {n : ℕ} (h : n < maxObjectSize) :
    Tracks ⟨malloc (max 2048 n), n⟩ (some n) false := by
  refine ⟨by simp, ?_⟩
  rintro m ⟨⟩
  exact ⟨rfl, max 2048 n, malloc_eq h, le_max_right _ _, le_max_left _ _⟩

theorem intSized_tracks : Tracks ⟨malloc sizeofInt, sizeofInt⟩ (some sizeofInt) true := by
  have small : sizeofInt < maxObjectSize := by simp [sizeofInt, maxObjectSize]
  refine ⟨by simp, ?_⟩
  rintro m h
  obtain rfl : sizeofInt = m := Option.some.inj h
  have alloc : malloc sizeofInt = some sizeofInt := by simp [malloc, small]
  exact ⟨rfl, sizeofInt, alloc, le_rfl, by simp⟩

/-- An object with a known size or none yet, after a sound constructor. -/
theorem safe_of_created {b : Build} {origin : Origin t} {ops : List (Op t)} {o : Buffer}
    {small : Bool} (after : (create b origin).after = some o)
    (sound : (create b origin).Sound) (h : Tracks o origin.size small)
    (isInt : small = true → t = .intStore) (int : t = .intStore → origin.size = some sizeofInt) :
    Safe b origin ops ↔ Shrinks b origin.size ops ∧
      (b.zeroFills = true → small = true → ∀ op ∈ ops, op.isPut = false) := by
  rw [← steps_sound_iff b ops h isInt int]
  exact (Outcome.sound_andThen after _).trans (and_iff_right sound)

theorem unsafe_of_created {b : Build} {origin : Origin t} {ops : List (Op t)}
    (unsound : ¬ (create b origin).Sound) : ¬ Safe b origin ops :=
  fun safe => unsound (Outcome.Sound.of_andThen safe)

theorem named_safe_iff (b : Build) (c : Contents t) (ops : List (Op t)) :
    Safe b (.named c) ops ↔ c.bytes = 0 ∨ (c.bytes < 2 ^ 31 ∧ Shrinks b (some c.bytes) ops) := by
  by_cases small : c.bytes < 2 ^ 31
  · have size : sizeT (castInt c.bytes) = c.bytes := (sizeT_castInt c.inMemory).mpr small
    have tracks := allocated_tracks c.inMemory
    have fill := (tracks.bzero_sound b (max 2048 c.bytes) le_rfl (by simp)).mpr fun _ => rfl
    by_cases empty : c.bytes = 0
    · have created : create b (.named c) = ⟨Buffer.bzero b
          ⟨malloc (max 2048 c.bytes), c.bytes⟩ (max 2048 c.bytes), none⟩ := by
        rw [create, size, Outcome.andThen_none (if_pos empty), if_pos empty]
      refine iff_of_true ?_ (Or.inl empty)
      rw [Safe, run, Outcome.andThen_none] <;> rw [created]
      exact fill
    · have created : create b (.named c) = ⟨Buffer.bzero b
          ⟨malloc (max 2048 c.bytes), c.bytes⟩ (max 2048 c.bytes) ++
          [Buffer.write ⟨malloc (max 2048 c.bytes), c.bytes⟩ c.bytes, .recorded c.bytes c.bytes],
          some ⟨malloc (max 2048 c.bytes), c.bytes⟩⟩ := by
        rw [create, size, Outcome.andThen_some]
        simp [empty]
      have sound : (create b (.named c)).Sound := by
        rw [created]
        intro e he
        obtain filled | written := List.mem_append.mp he
        · exact fill e filled
        · obtain rfl | recorded := List.mem_cons.mp written
          · exact tracks.write_sound
          · obtain rfl := List.mem_singleton.mp recorded
            exact rfl
      rw [safe_of_created (by rw [created]) sound tracks (by simp) fun int => by
        rw [Origin.size, c.int int]]
      simp only [Bool.false_eq_true, false_implies, implies_true, and_true, empty, false_or,
        small, true_and, Origin.size]
  · have nonempty : c.bytes ≠ 0 := by omega
    refine iff_of_false (unsafe_of_created fun sound => ?_) (by tauto)
    have recorded : Event.recorded (sizeT (castInt c.bytes)) c.bytes ∈
        (create b (.named c)).events := by
      simp [create, Outcome.andThen, nonempty]
    exact small ((sizeT_castInt c.inMemory).mp (sound _ recorded))

theorem existing_safe_iff (b : Build) (ops : List (Op t)) :
    Safe b .existing ops ↔ Shrinks b (Origin.size (t := t) .existing) ops ∧
      (b.zeroFills = true → t = .intStore → ∀ op ∈ ops, op.isPut = false) := by
  cases t with
  | intStore =>
      rw [safe_of_created rfl (by simp [create, Outcome.Sound]) intSized_tracks (by simp)
        fun _ => rfl]
      simp
  | blobStore =>
      have tracks : Tracks ⟨none, sizeT (-1)⟩ none false := unknown_tracks rfl (by decide)
      rw [safe_of_created rfl (by simp [create, Outcome.Sound]) tracks (by simp) (by simp)]
      simp [Origin.size]

theorem deserialized_safe_iff (b : Build) (size : ℤ) (range : -2 ^ 31 ≤ size ∧ size < 2 ^ 31)
    (int : t = .intStore → size = sizeofInt) (ops : List (Op t)) :
    Safe b (.deserialized size range int) ops ↔ (b.zeroFills = true → -1 ≤ size) ∧
      Shrinks b (Origin.deserialized size range int).size ops := by
  obtain ⟨lower, upper⟩ := range
  obtain unknown | known | negative : size = -1 ∨ 0 ≤ size ∨ size < -1 := by omega
  · have tracks : Tracks ⟨none, sizeT (-1)⟩ none false := unknown_tracks rfl (by decide)
    have after : create b (.deserialized size ⟨lower, upper⟩ int) =
        ⟨[], some ⟨none, sizeT (-1)⟩⟩ := by rw [create, if_pos unknown]
    have noSize : (Origin.deserialized size ⟨lower, upper⟩ int).size = none := by
      simp [Origin.size, unknown]
    have isBlob : t ≠ .intStore := fun h => by simp [int h, sizeofInt] at unknown
    rw [safe_of_created (by rw [after]) (by simp [after, Outcome.Sound]) (by rw [noSize]; exact tracks)
      (by simp) fun h => absurd h isBlob]
    simp [unknown]
  · have cast : sizeT size = size.toNat := by
      simp only [sizeT]
      omega
    have inMemory : size.toNat < maxObjectSize := by
      simp only [maxObjectSize]
      omega
    have tracks := allocated_tracks inMemory
    have fill := (tracks.bzero_sound b (max 2048 size.toNat) le_rfl (by simp)).mpr fun _ => rfl
    have created : create b (.deserialized size ⟨lower, upper⟩ int) = ⟨Buffer.bzero b
        ⟨malloc (max 2048 size.toNat), size.toNat⟩ (max 2048 size.toNat),
        some ⟨malloc (max 2048 size.toNat), size.toNat⟩⟩ := by
      rw [create, if_neg (by omega), cast]
    have hsize : (Origin.deserialized size ⟨lower, upper⟩ int).size = some size.toNat := by
      simp [Origin.size, known]
    rw [safe_of_created (by rw [created]) (by rw [created]; exact fill) (by rw [hsize]; exact tracks)
      (by simp) fun h => by rw [hsize, int h]; rfl]
    simp only [Bool.false_eq_true, false_implies, implies_true, and_true]
    exact (and_iff_right fun _ => by omega).symm
  · have cast : maxObjectSize ≤ sizeT size := by
      simp only [sizeT, maxObjectSize]
      omega
    have null : malloc (max 2048 (sizeT size)) = none := by
      have := cast.trans (le_max_right 2048 (sizeT size))
      simp only [malloc, if_neg (not_lt.mpr this)]
    have created : create b (.deserialized size ⟨lower, upper⟩ int) = ⟨Buffer.bzero b
        ⟨none, sizeT size⟩ (max 2048 (sizeT size)), some ⟨none, sizeT size⟩⟩ := by
      rw [create, if_neg (by omega), null]
    have noSize : (Origin.deserialized size ⟨lower, upper⟩ int).size = none := by
      simp only [Origin.size, if_neg (not_le.mpr (show size < 0 by omega))]
    have isBlob : t ≠ .intStore := fun h => by
      have := int h
      simp only [sizeofInt] at this
      omega
    by_cases fills : b.zeroFills = true
    · refine iff_of_false (unsafe_of_created fun sound => ?_) fun h => by
        have := h.1 fills
        omega
      rw [created] at sound
      have := (bzero_sound b _ _).mp sound fills
      simp [Buffer.capacity] at this
    · have sound : (create b (.deserialized size ⟨lower, upper⟩ int)).Sound := by
        rw [created]
        exact (bzero_sound b _ _).mpr fun h => absurd h fills
      have tracks : Tracks ⟨none, sizeT size⟩ none false :=
        unknown_tracks rfl (le_trans (by decide) cast)
      rw [safe_of_created (by rw [created]) sound (by rw [noSize]; exact tracks) (by simp)
        fun h => absurd h isBlob]
      simp [fills]

/-- Buffers are safe exactly when all contents larger than 2048 bytes are no larger than the
contents before them, and the constructor can take its argument. -/
theorem safe_iff (b : Build) (origin : Origin t) (ops : List (Op t)) :
    Safe b origin ops ↔
      origin.Throws ∨ (origin.Allowed b ops ∧ Shrinks b origin.size ops) := by
  cases origin with
  | named c => exact named_safe_iff b c ops
  | existing =>
      rw [existing_safe_iff, Origin.Throws, false_or, Origin.Allowed]
      exact and_comm
  | deserialized size range int =>
      rw [deserialized_safe_iff, Origin.Throws, false_or, Origin.Allowed]

def blobOf (n : ℕ) (h : n < 2 ^ 63 := by decide) : Contents .blobStore := ⟨n, h, by simp⟩

/-- A row of 3000 bytes is read, then 4000 bytes are put: the assertion fails, and without it
the copy passes the end of the buffer. -/
theorem growingPut_unsafe :
    ¬ Safe ⟨false, false⟩ .existing [.load false (blobOf 3000), .put (blobOf 4000)] := by
  intro safe
  have shrinks := ((existing_safe_iff _ _).mp safe).1
  simp [Shrinks, fetched, Origin.size, blobOf, FitsAfter] at shrinks

end ObjectBuffer

end MixT.Pgsql
