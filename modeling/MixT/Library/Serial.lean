import Mathlib.Algebra.Group.Nat.Defs

/-!
# Serialized values

A serializer writes the bytes of a value, tells how many they are, and reads the
value back from the front of a buffer. A reader moves on by the size of what it read.
-/

namespace MixT.Library

/-- Writing, size and reading of the values of a type. -/
structure Serial (α : Type*) where
  toBytes : α → List UInt8
  bytesSize : α → ℕ
  fromBytes : List UInt8 → α
  length_toBytes : ∀ a, (toBytes a).length = bytesSize a
  fromBytes_toBytes : ∀ a rest, fromBytes (toBytes a ++ rest) = a

namespace Serial

variable {α : Type*}

/-- Read a value and move on by its size. -/
def receive (s : Serial α) (buf : List UInt8) : α × List UInt8 :=
  let a := s.fromBytes buf
  (a, buf.drop (s.bytesSize a))

@[simp] theorem receive_toBytes (s : Serial α) (a : α) (rest : List UInt8) :
    s.receive (s.toBytes a ++ rest) = (a, rest) := by
  rw [receive, s.fromBytes_toBytes, ← s.length_toBytes, List.drop_left]

/-- What stands behind a written value. -/
theorem drop_toBytes (s : Serial α) {w : ℕ} (a : α) (size : s.bytesSize a = w)
    (rest : List UInt8) (k : ℕ) :
    (s.toBytes a ++ rest).drop (w + k) = rest.drop k := by
  rw [← size, ← s.length_toBytes, ← List.drop_drop, List.drop_left]

/-- The bytes of a number, the lowest first. -/
def leBytes : ℕ → ℕ → List UInt8
  | 0, _ => []
  | w + 1, n => UInt8.ofNat n :: leBytes w (n / 256)

/-- The number in the first bytes, the lowest first. -/
def leNat : ℕ → List UInt8 → ℕ
  | 0, _ => 0
  | _ + 1, [] => 0
  | w + 1, b :: bs => b.toNat + 256 * leNat w bs

@[simp] theorem length_leBytes (w n : ℕ) : (leBytes w n).length = w := by
  induction w generalizing n with
  | zero => rfl
  | succ w ih => rw [leBytes, List.length_cons, ih]

theorem leNat_leBytes (w n : ℕ) (rest : List UInt8) :
    leNat w (leBytes w n ++ rest) = n % 256 ^ w := by
  induction w generalizing n with
  | zero => simp [leNat, Nat.mod_one]
  | succ w ih =>
      calc
        leNat (w + 1) (leBytes (w + 1) n ++ rest)
            = (UInt8.ofNat n).toNat + 256 * leNat w (leBytes w (n / 256) ++ rest) := rfl
        _ = n % 256 + 256 * (n / 256 % 256 ^ w) := by rw [ih, UInt8.toNat_ofNat']
        _ = n % 256 ^ (w + 1) := by rw [Nat.pow_succ', Nat.mod_mul]

/-- Values that a number of bytes can number. -/
def word (w : ℕ) (number : α → ℕ) (value : ℕ → α) (lt : ∀ a, number a < 256 ^ w)
    (back : ∀ a, value (number a) = a) : Serial α where
  toBytes a := leBytes w (number a)
  bytesSize _ := w
  fromBytes buf := value (leNat w buf)
  length_toBytes a := length_leBytes w (number a)
  fromBytes_toBytes a rest := by rw [leNat_leBytes, Nat.mod_eq_of_lt (lt a), back]

def uint64 : Serial UInt64 :=
  word 8 UInt64.toNat UInt64.ofNat (fun a => a.toNat_lt) fun _ => UInt64.ofNat_toNat

def int64 : Serial Int64 :=
  word 8 (fun a => a.toUInt64.toNat) (fun n => (UInt64.ofNat n).toInt64)
    (fun a => a.toUInt64.toNat_lt) fun a => by simp

def int32 : Serial Int32 :=
  word 4 (fun a => a.toUInt32.toNat) (fun n => (UInt32.ofNat n).toInt32)
    (fun a => a.toUInt32.toNat_lt) fun a => by simp

def bool : Serial Bool :=
  word 1 Bool.toNat (fun n => n != 0) (by decide) (by decide)

section Lists

variable (s : Serial α)

/-- Values in a row, a one before each and a zero at the end. -/
def listBytes : List α → List UInt8
  | [] => [0]
  | a :: as => 1 :: (s.toBytes a ++ listBytes as)

/-- Read values while there is a one before them. -/
def listFrom : List UInt8 → List α
  | [] => []
  | b :: buf =>
      if b = 0 then []
      else (s.receive buf).1 :: listFrom (s.receive buf).2
termination_by buf => buf.length
decreasing_by
  simp only [receive, List.length_drop, List.length_cons]
  omega

theorem listFrom_listBytes (as : List α) (rest : List UInt8) :
    s.listFrom (s.listBytes as ++ rest) = as := by
  induction as with
  | nil => simp [listBytes, listFrom]
  | cons a as ih =>
      rw [listBytes, List.cons_append, listFrom, if_neg (by decide), List.append_assoc,
        receive_toBytes, ih]

/-- Lists of values. -/
def list : Serial (List α) where
  toBytes := s.listBytes
  bytesSize as := (s.listBytes as).length
  fromBytes := s.listFrom
  length_toBytes _ := rfl
  fromBytes_toBytes := s.listFrom_listBytes

end Lists

@[simp] theorem bytesSize_uint64 (a : UInt64) : uint64.bytesSize a = 8 := rfl

@[simp] theorem bytesSize_int64 (a : Int64) : int64.bytesSize a = 8 := rfl

@[simp] theorem bytesSize_int32 (a : Int32) : int32.bytesSize a = 4 := rfl

@[simp] theorem bytesSize_bool (a : Bool) : bool.bytesSize a = 1 := rfl

end Serial

end MixT.Library
