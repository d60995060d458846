import Mathlib.Data.List.Perm.Subperm
import Mathlib.Order.Nat
import MixT.Library.Serial

/-!
# Environments in bytes

Between two phases the holders of some variables and the remote maps of one label are
written to a connection and read into another store. Each kind of holder has its own
format, the same two lists of names and of handle types drive both sides.
-/

namespace MixT.Serialization

open Library

/-- The types of a program's variables: values, and handles with the stored type and the label of
each. Memory that was never constructed holds zeros. -/
structure HostTypes (τ η Λ : Type) where
  Val : τ → Type
  zero : ∀ t, Val t
  Hnd : η → Type
  stored : η → τ
  label : η → Λ
  name : ∀ {h}, Hnd h → Int64

/-- A variable's holder: by value, with all its values, or remote. -/
inductive Kind (τ η : Type)
  | value (t : τ)
  | type (t : τ)
  | remote (h : η)

variable {τ η Λ ν : Type} (H : HostTypes τ η Λ)

/-- `value_holder`. -/
structure ValueHolder (T : Type) where
  t : T
  memUninitialized : Bool

/-- `type_holder`. -/
structure TypeHolder (T : Type) where
  t : List T
  currPos : Int32
  bound : Bool

/-- `remote_holder`. -/
structure RemoteHolder (T : Type) where
  handle : List T
  currPos : Int32

def Holder : Kind τ η → Type
  | .value t => ValueHolder (H.Val t)
  | .type t => TypeHolder (H.Val t)
  | .remote h => RemoteHolder (H.Hnd h)

/-- `remote_map_holder`: a `std::map` from the names of objects. -/
structure MapHolder (T : Type) where
  super : Std.ExtTreeMap Int64 (TypeHolder T)
  /-- Kept by debug builds only. -/
  isInitialized : Bool

abbrev Maps := ∀ h, MapHolder (H.Val (H.stored h))

/-- The holders of the variables and the remote maps. -/
structure Store (kind : ν → Kind τ η) where
  holders : ∀ x, Holder H (kind x)
  maps : Maps H

/-- What writes values, vectors and handles, and the names debug builds send. -/
structure Formats (ν : Type) where
  val : ∀ t, Serial (H.Val t)
  vec : ∀ t, Serial (List (H.Val t))
  handles : ∀ h, Serial (List (H.Hnd h))
  holderName : ν → List UInt8
  entryName : η → List UInt8
  mapName : η → List UInt8
  simpleNonce : List UInt8
  debug : Bool

section Operations

variable {H}

namespace TypeHolder

variable {T : Type}

def empty : TypeHolder T := ⟨[], -1, false⟩

def push (h : TypeHolder T) (v : T) : TypeHolder T :=
  { h with t := h.t ++ [v], currPos := h.currPos + 1 }

def bind (h : TypeHolder T) (v : T) : TypeHolder T :=
  { h with t := h.t ++ [v], currPos := h.currPos + 1, bound := true }

def increment (h : TypeHolder T) : TypeHolder T := { h with currPos := h.currPos + 1 }

def beginPhase (h : TypeHolder T) : TypeHolder T := { h with currPos := -1 }

/-- The current value, if the cursor is at one. -/
def get (h : TypeHolder T) : Option T :=
  if 0 ≤ h.currPos then h.t[h.currPos.toNatClampNeg]? else none

end TypeHolder

/-- `handle.at(curr_pos)`. -/
def RemoteHolder.handleAt {T : Type} (r : RemoteHolder T) : Option T :=
  if 0 ≤ r.currPos then r.handle[r.currPos.toNatClampNeg]? else none

namespace MapHolder

variable {T : Type}

/-- `super[name]`. -/
def entry (m : MapHolder T) (name : Int64) : TypeHolder T := m.super.getD name .empty

def setEntry (m : MapHolder T) (name : Int64) (h : TypeHolder T) : MapHolder T :=
  { m with super := m.super.insert name h }

def beginPhase (m : MapHolder T) : MapHolder T :=
  { m with super := m.super.map fun _ h => h.beginPhase }

end MapHolder

variable (H)

/-- The values of a variable. -/
def valueType : Kind τ η → τ
  | .value t => t
  | .type t => t
  | .remote h => H.stored h

/-- What a variable is bound to: a value, or a handle with the object fetched for it. -/
def Bound : Kind τ η → Type
  | .value t => H.Val t
  | .type t => H.Val t
  | .remote h => H.Hnd h × H.Val (H.stored h)

/-- What changes a variable. -/
inductive Action (k : Kind τ η)
  | increment
  | incrementRemote
  | bind (v : Bound H k)
  | push (v : H.Val (valueType H k))

variable {H}

/-- The members of the holders that change them, with `none` where `handle.at` throws. -/
def act : (k : Kind τ η) → Action H k → Holder H k → Maps H → [DecidableEq η] →
    Option (Holder H k × Maps H)
  | .value _, .bind v, _, maps, _ => some (⟨v, false⟩, maps)
  | .value _, .push v, h, maps, _ => some ({ h with t := v }, maps)
  | .value _, _, h, maps, _ => some (h, maps)
  | .type _, .increment, h, maps, _ => some (h.increment, maps)
  | .type _, .incrementRemote, h, maps, _ => some (h, maps)
  | .type _, .bind v, h, maps, _ => some (h.bind v, maps)
  | .type _, .push v, h, maps, _ => some (h.push v, maps)
  | .remote η, a, r, maps, _ =>
      let update (r : RemoteHolder (H.Hnd η)) (f : TypeHolder (H.Val (H.stored η)) →
          TypeHolder (H.Val (H.stored η))) : Option (RemoteHolder (H.Hnd η) × Maps H) :=
        r.handleAt.map fun handle =>
          (r, Function.update maps η
            ((maps η).setEntry (H.name handle) (f ((maps η).entry (H.name handle)))))
      match a with
      | .increment => if 0 ≤ r.currPos then update r .increment else some (r, maps)
      | .incrementRemote => update { r with currPos := r.currPos + 1 } .increment
      | .bind (handle, o) =>
          update ⟨r.handle ++ [handle], r.currPos + 1⟩ fun h => h.bind o
      | .push v => update r fun h => h.push v

/-- `get` of the holders. -/
def get : (k : Kind τ η) → Holder H k → Maps H → Option (H.Val (valueType H k))
  | .value _, h, _ => some h.t
  | .type _, h, _ => h.get
  | .remote η, r, maps => r.handleAt.bind fun handle => ((maps η).entry (H.name handle)).get

def Holder.beginPhase : (k : Kind τ η) → Holder H k → Holder H k
  | .value _, h => h
  | .type _, h => TypeHolder.beginPhase h
  | .remote _, r => { r with currPos := -1 }

variable (H) in
/-- What a phase does with its store. -/
inductive StoreOp (kind : ν → Kind τ η)
  | beginPhase
  | act (x : ν) (a : Action H (kind x))
  | get (x : ν)

variable {kind : ν → Kind τ η} [DecidableEq ν] [DecidableEq η]

/-- The answers of the reads, up to a throw. -/
def answers (s : Store H kind) :
    List (StoreOp H kind) → List (Σ x, Option (H.Val (valueType H (kind x))))
  | [] => []
  | .beginPhase :: ops =>
      answers ⟨fun x => (s.holders x).beginPhase (kind x), fun h => (s.maps h).beginPhase⟩ ops
  | .act x a :: ops =>
      match act (kind x) a (s.holders x) s.maps with
      | some (h, maps) => answers ⟨Function.update s.holders x h, maps⟩ ops
      | none => []
  | .get x :: ops => ⟨x, get (kind x) (s.holders x) s.maps⟩ :: answers s ops

end Operations

section Wire

variable {H} (f : Formats H ν)

/-- A name that only debug builds send. -/
def stamp (name : List UInt8) : List UInt8 := if f.debug then name else []

/-- The receiver compares the name with its own. -/
def passStamp (name : List UInt8) (buf : List UInt8) : Option (List UInt8) :=
  if f.debug then
    if buf.take name.length = name then some (buf.drop name.length) else none
  else some buf

@[simp] theorem passStamp_stamp (name rest : List UInt8) :
    passStamp f name (stamp f name ++ rest) = some rest := by
  by_cases h : f.debug = true
  · simp [passStamp, stamp, h]
  · simp [passStamp, stamp, h]

/-- `serialize_holder` on a `type_holder`. -/
def serializeTypeHolder (t : τ) (name : List UInt8) (h : TypeHolder (H.Val t)) : List UInt8 :=
  stamp f name ++ ((f.vec t).toBytes h.t ++ (stamp f name ++
    (Serial.int32.toBytes h.currPos ++ (Serial.bool.toBytes h.bound ++ stamp f name))))

/-- `receive_holder` on a `type_holder`. -/
def receiveTypeHolder (t : τ) (name : List UInt8) (buf : List UInt8) :
    Option (TypeHolder (H.Val t) × List UInt8) := do
  let buf ← passStamp f name buf
  let (vs, buf) := (f.vec t).receive buf
  let buf ← passStamp f name buf
  let (currPos, buf) := Serial.int32.receive buf
  let (bound, buf) := Serial.bool.receive buf
  let buf ← passStamp f name buf
  some (⟨vs, currPos, bound⟩, buf)

theorem receiveTypeHolder_serialize (t : τ) (name : List UInt8) (h : TypeHolder (H.Val t))
    (rest : List UInt8) :
    receiveTypeHolder f t name (serializeTypeHolder f t name h ++ rest) = some (h, rest) := by
  simp [receiveTypeHolder, serializeTypeHolder, List.append_assoc]

/-- `serialize_holder` on the holder of a variable. Of a `value_holder` only the value is sent. -/
def serializeHolder (name : List UInt8) : (k : Kind τ η) → Holder H k → List UInt8
  | .value t, h => stamp f name ++ (f.val t).toBytes h.t
  | .type t, h => serializeTypeHolder f t name h
  | .remote η, h =>
      stamp f name ++ ((f.handles η).toBytes h.handle ++ Serial.int32.toBytes h.currPos)

/-- `receive_holder` on the holder of a variable: assigned a value, a `value_holder` is
initialised. -/
def receiveHolder (name : List UInt8) :
    (k : Kind τ η) → List UInt8 → Option (Holder H k × List UInt8)
  | .value t, buf => do
      let buf ← passStamp f name buf
      let (v, buf) := (f.val t).receive buf
      some (⟨v, false⟩, buf)
  | .type t, buf => receiveTypeHolder f t name buf
  | .remote η, buf => do
      let buf ← passStamp f name buf
      let (handle, buf) := (f.handles η).receive buf
      let (currPos, buf) := Serial.int32.receive buf
      some (⟨handle, currPos⟩, buf)

/-- A holder as it arrives. -/
def delivered : (k : Kind τ η) → Holder H k → Holder H k
  | .value _, h => { h with memUninitialized := false }
  | .type _, h => h
  | .remote _, h => h

/-- A value that was bound. -/
def Initialised : (k : Kind τ η) → Holder H k → Prop
  | .value _, h => h.memUninitialized = false
  | .type _, _ => True
  | .remote _, _ => True

theorem delivered_eq_iff (k : Kind τ η) (h : Holder H k) :
    delivered k h = h ↔ Initialised k h := by
  cases k with
  | value t =>
      constructor
      · exact fun same => (congrArg ValueHolder.memUninitialized same).symm
      · exact fun flag => congrArg (ValueHolder.mk (ValueHolder.t h)) (Eq.symm flag)
  | type t => simp [delivered, Initialised]
  | remote η => simp [delivered, Initialised]

theorem receiveHolder_serialize (name : List UInt8) (k : Kind τ η) (h : Holder H k)
    (rest : List UInt8) :
    receiveHolder f name k (serializeHolder f name k h ++ rest) = some (delivered k h, rest) := by
  cases k with
  | value t => simp [receiveHolder, serializeHolder, delivered, List.append_assoc]
  | type t => exact receiveTypeHolder_serialize f t name h rest
  | remote η =>
      simp [receiveHolder, serializeHolder, delivered, List.append_assoc]
      rfl

/-- One entry of a remote map. -/
def serializeEntry (h : η) (p : Int64 × TypeHolder (H.Val (H.stored h))) : List UInt8 :=
  Serial.int64.toBytes p.1 ++
    (serializeTypeHolder f (H.stored h) (f.entryName h) p.2 ++ stamp f f.simpleNonce)

/-- `serialize_holder` on a `remote_map_holder`. -/
def serializeMap (h : η) (m : MapHolder (H.Val (H.stored h))) : List UInt8 :=
  (if f.debug then Serial.bool.toBytes m.isInitialized else []) ++ (stamp f (f.mapName h) ++
    (Serial.uint64.toBytes (UInt64.ofNat m.super.size) ++
      (m.super.toList.flatMap (serializeEntry f h) ++ stamp f (f.mapName h))))

/-- The loop over the entries of a remote map. Its counter has 32 bits, the number of entries 64.
Without an end within the given turns there is no result. -/
def receiveEntries (h : η) (mapSize : UInt64) :
    ℕ → UInt32 → Std.ExtTreeMap Int64 (TypeHolder (H.Val (H.stored h))) → List UInt8 →
      Option (Std.ExtTreeMap Int64 (TypeHolder (H.Val (H.stored h))) × List UInt8)
  | 0, i, super, buf => if i.toUInt64 < mapSize then none else some (super, buf)
  | turns + 1, i, super, buf =>
      if i.toUInt64 < mapSize then do
        let (key, buf) := Serial.int64.receive buf
        let (entry, buf) ← receiveTypeHolder f (H.stored h) (f.entryName h) buf
        let buf ← passStamp f f.simpleNonce buf
        receiveEntries h mapSize turns (i + 1) (super.insert key entry) buf
      else some (super, buf)

/-- `receive_holder` on a `remote_map_holder`: the entries are put into the receiver's map. -/
def receiveMap (turns : ℕ) (h : η) (m : MapHolder (H.Val (H.stored h))) (buf : List UInt8) :
    Option (MapHolder (H.Val (H.stored h)) × List UInt8) := do
  let (isInitialized, buf) :=
    if f.debug then Serial.bool.receive buf else (m.isInitialized, buf)
  let buf ← passStamp f (f.mapName h) buf
  let (mapSize, buf) := Serial.uint64.receive buf
  let (super, buf) ← receiveEntries f h mapSize turns 0 m.super buf
  if f.debug && super.size != mapSize.toNat then none
  else
    let buf ← passStamp f (f.mapName h) buf
    some (⟨super, isInitialized⟩, buf)

/-- The receiver's map after the sender's entries were put into it. -/
def merged {T : Type} (super sent : Std.ExtTreeMap Int64 (TypeHolder T)) :
    Std.ExtTreeMap Int64 (TypeHolder T) :=
  sent.toList.foldl (fun m p => m.insert p.1 p.2) super

theorem counter_lt_iff {i : UInt32} {mapSize : UInt64} :
    i.toUInt64 < mapSize ↔ i.toNat < mapSize.toNat := by
  rw [UInt64.lt_iff_toNat_lt, UInt32.toNat_toUInt64]

theorem counter_next {i : UInt32} (small : i.toNat + 1 < 2 ^ 32) :
    (i + 1).toNat = i.toNat + 1 := by
  rw [UInt32.toNat_add]
  exact Nat.mod_eq_of_lt small

/-- A turn of the loop takes in one entry. -/
theorem receiveEntries_cons (h : η) {mapSize : UInt64} {i : UInt32} (goesOn : i.toUInt64 < mapSize)
    (turns : ℕ) (p : Int64 × TypeHolder (H.Val (H.stored h)))
    (super : Std.ExtTreeMap Int64 (TypeHolder (H.Val (H.stored h)))) (rest : List UInt8) :
    receiveEntries f h mapSize (turns + 1) i super (serializeEntry f h p ++ rest) =
      receiveEntries f h mapSize turns (i + 1) (super.insert p.1 p.2) rest := by
  simp only [receiveEntries, goesOn, if_true, serializeEntry, List.append_assoc,
    Serial.receive_toBytes, receiveTypeHolder_serialize, passStamp_stamp, Option.bind_eq_bind,
    Option.bind_some]

/-- The loop takes in as many entries as there are, if 32 bits can count them. -/
theorem receiveEntries_flatMap (h : η) (mapSize : UInt64)
    (entries : List (Int64 × TypeHolder (H.Val (H.stored h)))) (turns : ℕ) (i : UInt32)
    (few : mapSize.toNat < 2 ^ 32) (count : i.toNat + entries.length = mapSize.toNat)
    (enough : entries.length ≤ turns)
    (super : Std.ExtTreeMap Int64 (TypeHolder (H.Val (H.stored h)))) (rest : List UInt8) :
    receiveEntries f h mapSize turns i super (entries.flatMap (serializeEntry f h) ++ rest) =
      some (entries.foldl (fun m p => m.insert p.1 p.2) super, rest) := by
  induction entries generalizing turns i super with
  | nil =>
      have ends : ¬ i.toUInt64 < mapSize := by
        rw [counter_lt_iff]
        simp only [List.length_nil] at count
        omega
      cases turns with
      | zero => simp [receiveEntries, ends]
      | succ turns => simp [receiveEntries, ends]
  | cons p entries ih =>
      simp only [List.length_cons] at count enough
      have goesOn : i.toUInt64 < mapSize := counter_lt_iff.mpr (by omega)
      have next : (i + 1).toNat = i.toNat + 1 := counter_next (by omega)
      cases turns with
      | zero => omega
      | succ turns =>
          rw [List.flatMap_cons, List.append_assoc, receiveEntries_cons f h goesOn]
          exact ih turns (i + 1) (by omega) (by omega) (super.insert p.1 p.2)

/-- With more entries the counter starts again and the loop never ends. -/
theorem receiveEntries_none (h : η) {mapSize : UInt64} (many : 2 ^ 32 ≤ mapSize.toNat)
    (turns : ℕ) (i : UInt32) (super : Std.ExtTreeMap Int64 (TypeHolder (H.Val (H.stored h))))
    (buf : List UInt8) : receiveEntries f h mapSize turns i super buf = none := by
  have goesOn : ∀ i : UInt32, i.toUInt64 < mapSize := by
    intro i
    apply counter_lt_iff.mpr
    exact i.toNat_lt.trans_le many
  induction turns generalizing i super buf with
  | zero => simp [receiveEntries, goesOn]
  | succ turns ih =>
      simp only [receiveEntries, goesOn, if_true, ih]
      simp

theorem foldl_insert_getElem? {T : Type} (entries : List (Int64 × TypeHolder T))
    (distinct : entries.Pairwise fun a b => ¬ compare a.1 b.1 = .eq)
    (super : Std.ExtTreeMap Int64 (TypeHolder T)) (k : Int64) :
    (entries.foldl (fun m p => m.insert p.1 p.2) super)[k]? =
      ((entries.find? fun p => p.1 == k).map Prod.snd).or super[k]? := by
  induction entries generalizing super with
  | nil => simp
  | cons p entries ih =>
      obtain ⟨first, distinct⟩ := List.pairwise_cons.mp distinct
      rw [List.foldl_cons, ih distinct, Std.ExtTreeMap.getElem?_insert, List.find?_cons]
      by_cases here : p.1 = k
      · have absent : entries.find? (fun p => p.1 == k) = none := by
          rw [List.find?_eq_none]
          intro q hq same
          exact first q hq (by simpa [here] using (beq_iff_eq.mp same).symm)
        simp [here, absent]
      · have other : (p.1 == k) = false := beq_eq_false_iff_ne.mpr here
        simp [here, other]

/-- A sent entry replaces one of the receiver, all others stay. -/
theorem merged_getElem? {T : Type} (super sent : Std.ExtTreeMap Int64 (TypeHolder T))
    (k : Int64) : (merged super sent)[k]? = sent[k]?.or super[k]? := by
  rw [merged, foldl_insert_getElem? _ Std.ExtTreeMap.distinct_keys_toList]
  congr 1
  cases found : sent[k]? with
  | none =>
      rw [Option.map_eq_none_iff, List.find?_eq_none]
      rintro ⟨k', v⟩ hp same
      obtain rfl : k' = k := beq_iff_eq.mp same
      simp [Std.ExtTreeMap.mem_toList_iff_getElem?_eq_some.mp hp] at found
  | some v =>
      have hmem := Std.ExtTreeMap.mem_toList_iff_getElem?_eq_some.mpr found
      cases hfind : sent.toList.find? (fun p => p.1 == k) with
      | none => exact absurd (beq_self_eq_true k) (List.find?_eq_none.mp hfind _ hmem)
      | some p =>
          obtain rfl : p.1 = k := by simpa using List.find?_some hfind
          have := Std.ExtTreeMap.mem_toList_iff_getElem?_eq_some.mp (List.mem_of_find?_eq_some hfind)
          rw [found] at this
          exact this.symm

theorem merged_empty {T : Type} (sent : Std.ExtTreeMap Int64 (TypeHolder T)) :
    merged ∅ sent = sent := by
  apply Std.ExtTreeMap.ext_getElem?
  intro k
  simp [merged_getElem?]

theorem merged_of_subset {T : Type} {super sent : Std.ExtTreeMap Int64 (TypeHolder T)}
    (subset : ∀ k ∈ super, k ∈ sent) : merged super sent = sent := by
  apply Std.ExtTreeMap.ext_getElem?
  intro k
  rw [merged_getElem?]
  cases found : sent[k]? with
  | some v => rfl
  | none =>
      have absent : k ∉ super := fun hk => by
        have := subset k hk
        simp [Std.ExtTreeMap.mem_iff_isSome_getElem?, found] at this
      simpa using absent

/-- The map keeps its size exactly when the receiver had no other keys. -/
theorem merged_size_eq_iff {T : Type} (super sent : Std.ExtTreeMap Int64 (TypeHolder T)) :
    (merged super sent).size = sent.size ↔ ∀ k ∈ super, k ∈ sent := by
  constructor
  · intro size k hk
    have keys : ∀ k, k ∈ merged super sent ↔ k ∈ sent ∨ k ∈ super := by
      intro k
      simp only [Std.ExtTreeMap.mem_iff_isSome_getElem?, merged_getElem?, Option.isSome_or,
        Bool.or_eq_true]
    have nodup : ∀ m : Std.ExtTreeMap Int64 (TypeHolder T), m.keys.Nodup := by
      intro m
      exact Std.ExtTreeMap.distinct_keys.imp fun h same => h (by simp [same])
    have subset : sent.keys ⊆ (merged super sent).keys := by
      intro k hk
      rw [Std.ExtTreeMap.mem_keys] at hk ⊢
      exact (keys k).mpr (Or.inl hk)
    have length : (merged super sent).keys.length ≤ sent.keys.length := by
      rw [Std.ExtTreeMap.length_keys, Std.ExtTreeMap.length_keys, size]
    have perm := (List.subperm_of_subset (nodup sent) subset).perm_of_length_le length
    rw [← Std.ExtTreeMap.mem_keys, perm.mem_iff, Std.ExtTreeMap.mem_keys]
    exact (keys k).mpr (Or.inr hk)
  · intro subset
    rw [merged_of_subset subset]

/-- The loop comes to no end in fewer turns than there are entries. -/
theorem receiveEntries_short (h : η) (mapSize : UInt64)
    (entries : List (Int64 × TypeHolder (H.Val (H.stored h)))) (turns : ℕ) (i : UInt32)
    (few : mapSize.toNat < 2 ^ 32) (count : i.toNat + entries.length = mapSize.toNat)
    (short : turns < entries.length)
    (super : Std.ExtTreeMap Int64 (TypeHolder (H.Val (H.stored h)))) (rest : List UInt8) :
    receiveEntries f h mapSize turns i super (entries.flatMap (serializeEntry f h) ++ rest) =
      none := by
  induction entries generalizing turns i super with
  | nil => simp at short
  | cons p entries ih =>
      simp only [List.length_cons] at count short
      have goesOn : i.toUInt64 < mapSize := counter_lt_iff.mpr (by omega)
      have next : (i + 1).toNat = i.toNat + 1 := counter_next (by omega)
      cases turns with
      | zero => simp [receiveEntries, goesOn]
      | succ turns =>
          rw [List.flatMap_cons, List.append_assoc, receiveEntries_cons f h goesOn]
          exact ih turns (i + 1) (by omega) (by omega) (super.insert p.1 p.2)

/-- What follows the loop over the entries. -/
theorem receiveMap_serialize (turns : ℕ) (h : η) (m sent : MapHolder (H.Val (H.stored h)))
    (rest : List UInt8) :
    receiveMap f turns h m (serializeMap f h sent ++ rest) =
      (receiveEntries f h (UInt64.ofNat sent.super.size) turns 0 m.super
        (sent.super.toList.flatMap (serializeEntry f h) ++ (stamp f (f.mapName h) ++ rest))).bind
      fun read =>
        if (f.debug && read.1.size != (UInt64.ofNat sent.super.size).toNat) = true then none
        else (passStamp f (f.mapName h) read.2).bind fun buf =>
          some (⟨read.1, if f.debug then sent.isInitialized else m.isInitialized⟩, buf) := by
  cases hdebug : f.debug with
  | false =>
      simp only [receiveMap, serializeMap, hdebug, Bool.false_eq_true, if_false, List.nil_append,
        List.append_assoc, passStamp_stamp, Serial.receive_toBytes, Option.bind_eq_bind,
        Option.bind_some, Bool.false_and]
  | true =>
      simp only [receiveMap, serializeMap, hdebug, if_true, List.append_assoc, passStamp_stamp,
        Serial.receive_toBytes, Option.bind_eq_bind, Option.bind_some, Bool.true_and]

/-- The receiver takes a map in: 32 bits can count its entries, the loop has the turns, and in
debug builds the receiver has no other entries. -/
structure Takes (turns : ℕ) (h : η) (m sent : MapHolder (H.Val (H.stored h))) : Prop where
  few : sent.super.size < 2 ^ 32
  enough : sent.super.size ≤ turns
  noOthers : f.debug = true → ∀ k ∈ m.super, k ∈ sent.super

/-- The receiver's map with the sender's taken in. -/
def takeIn {h : η} (m sent : MapHolder (H.Val (H.stored h))) : MapHolder (H.Val (H.stored h)) :=
  ⟨merged m.super sent.super, if f.debug then sent.isInitialized else m.isInitialized⟩

theorem receiveMap_of_takes {turns : ℕ} {h : η} {m sent : MapHolder (H.Val (H.stored h))}
    (takes : Takes f turns h m sent) (rest : List UInt8) :
    receiveMap f turns h m (serializeMap f h sent ++ rest) = some (takeIn f m sent, rest) := by
  have size : (UInt64.ofNat sent.super.size).toNat = sent.super.size :=
    UInt64.toNat_ofNat_of_lt' (takes.few.trans (by decide))
  have entries := receiveEntries_flatMap f h (UInt64.ofNat sent.super.size) sent.super.toList
    turns 0 (by rw [size]; exact takes.few)
    (by rw [Std.ExtTreeMap.length_toList, size]; simp)
    (by rw [Std.ExtTreeMap.length_toList]; exact takes.enough) m.super
    (stamp f (f.mapName h) ++ rest)
  have passes : ¬ (f.debug && (merged m.super sent.super).size != sent.super.size) = true := by
    intro stops
    rw [Bool.and_eq_true, bne_iff_ne, ne_eq, merged_size_eq_iff] at stops
    exact stops.2 (takes.noOthers stops.1)
  rw [receiveMap_serialize, entries, Option.bind_some, size]
  rw [← merged, if_neg passes, passStamp_stamp, Option.bind_some, takeIn]

theorem receiveMap_of_not_takes {turns : ℕ} {h : η} {m sent : MapHolder (H.Val (H.stored h))}
    (inMemory : sent.super.size < 2 ^ 64) (fails : ¬ Takes f turns h m sent) (rest : List UInt8) :
    receiveMap f turns h m (serializeMap f h sent ++ rest) = none := by
  have size : (UInt64.ofNat sent.super.size).toNat = sent.super.size :=
    UInt64.toNat_ofNat_of_lt' inMemory
  have count : (0 : UInt32).toNat + sent.super.toList.length =
      (UInt64.ofNat sent.super.size).toNat := by
    rw [Std.ExtTreeMap.length_toList, size]
    simp
  rw [receiveMap_serialize]
  by_cases few : sent.super.size < 2 ^ 32
  · by_cases enough : sent.super.size ≤ turns
    · have other : f.debug = true ∧ ¬ ∀ k ∈ m.super, k ∈ sent.super := by
        by_contra none
        exact fails ⟨few, enough, fun debug => by_contra fun h => none ⟨debug, h⟩⟩
      have stops : (f.debug && (merged m.super sent.super).size != sent.super.size) = true := by
        rw [Bool.and_eq_true, bne_iff_ne, ne_eq, merged_size_eq_iff]
        exact other
      rw [receiveEntries_flatMap f h _ _ _ _ (by rw [size]; exact few) count
        (by rw [Std.ExtTreeMap.length_toList]; exact enough), Option.bind_some, size, ← merged,
        if_pos stops]
    · rw [receiveEntries_short f h _ _ _ _ (by rw [size]; exact few) count
        (by rw [Std.ExtTreeMap.length_toList]; omega), Option.bind_none]
  · rw [receiveEntries_none f h (by rw [size]; omega), Option.bind_none]

variable {kind : ν → Kind τ η} [DecidableEq ν] [DecidableEq η] [DecidableEq Λ]

namespace Store

def setHolder (s : Store H kind) (x : ν) (h : Holder H (kind x)) : Store H kind :=
  { s with holders := Function.update s.holders x h }

def setMap (s : Store H kind) (h : η) (m : MapHolder (H.Val (H.stored h))) : Store H kind :=
  { s with maps := Function.update s.maps h m }

end Store

/-- `send_remote_maps`: of all handle types, those of the label. -/
def sendRemoteMaps (l : Λ) (s : Store H kind) : List η → List UInt8
  | [] => []
  | h :: types =>
      (if H.label h = l then serializeMap f h (s.maps h) else []) ++ sendRemoteMaps l s types

/-- `receive_remote_maps`. -/
def receiveRemoteMaps (turns : ℕ) (l : Λ) (s : Store H kind) :
    List η → List UInt8 → Option (Store H kind × List UInt8)
  | [], buf => some (s, buf)
  | h :: types, buf =>
      if H.label h = l then do
        let (m, buf) ← receiveMap f turns h (s.maps h) buf
        receiveRemoteMaps turns l (s.setMap h m) types buf
      else receiveRemoteMaps turns l s types buf

/-- `send_holder_values`, folded over the names. -/
def sendHolders (s : Store H kind) : List ν → List UInt8
  | [] => []
  | x :: names => serializeHolder f (f.holderName x) (kind x) (s.holders x) ++ sendHolders s names

/-- `receive_holder_values`, folded over the names. -/
def receiveHolders (s : Store H kind) :
    List ν → List UInt8 → Option (Store H kind × List UInt8)
  | [], buf => some (s, buf)
  | x :: names, buf => do
      let (h, buf) ← receiveHolder f (f.holderName x) (kind x) buf
      receiveHolders (s.setHolder x h) names buf

variable (Λ kind) in
/-- What is sent for a phase: the variables it requires or provides, and the maps of its label among
those of the store. A store has the map of each of its remote holders. -/
structure Transfer where
  label : Λ
  types : List η
  distinct : types.Nodup
  names : List ν
  covers : ∀ x ∈ names, ∀ h, kind x = .remote h → h ∈ types
  /-- The names of the set of variables and the number of maps that debug builds send. -/
  nonce : List UInt8
  number : List UInt8

variable (p : Transfer Λ kind)

/-- `send_store_values`. -/
def sendStoreValues (s : Store H kind) : List UInt8 :=
  stamp f p.nonce ++ (stamp f p.number ++ (sendRemoteMaps f p.label s p.types ++
    (stamp f p.nonce ++ sendHolders f s p.names)))

/-- `receive_store_values`. -/
def receiveStoreValues (turns : ℕ) (s : Store H kind) (buf : List UInt8) :
    Option (Store H kind × List UInt8) := do
  let buf ← passStamp f p.nonce buf
  let buf ← passStamp f p.number buf
  let (s, buf) ← receiveRemoteMaps f turns p.label s p.types buf
  let buf ← passStamp f p.nonce buf
  receiveHolders f s p.names buf

/-- The store with the sender's holders of the variables. -/
def withHolders (s sent : Store H kind) (names : List ν) : Store H kind :=
  { s with holders := fun x =>
      if x ∈ names then delivered (kind x) (sent.holders x) else s.holders x }

/-- The store with the sender's maps of the label. -/
def withMaps (l : Λ) (s sent : Store H kind) (types : List η) : Store H kind :=
  { s with maps := fun h =>
      if h ∈ types ∧ H.label h = l then takeIn f (s.maps h) (sent.maps h) else s.maps h }

omit [DecidableEq η] [DecidableEq Λ] in
theorem receiveHolders_send (s sent : Store H kind) (names : List ν) (rest : List UInt8) :
    receiveHolders f s names (sendHolders f sent names ++ rest) =
      some (withHolders s sent names, rest) := by
  induction names generalizing s with
  | nil => simp [receiveHolders, sendHolders, withHolders]
  | cons x names ih =>
      rw [sendHolders, receiveHolders, List.append_assoc, receiveHolder_serialize,
        Option.bind_eq_bind, Option.bind_some]
      apply (ih _).trans
      congr 2
      rw [withHolders, withHolders, Store.setHolder, Store.mk.injEq]
      refine ⟨?_, rfl⟩
      funext y
      by_cases here : y = x
      · subst here
        simp
      · simp [here]

omit [DecidableEq ν] in
/-- The maps of the label are each taken in. -/
theorem receiveRemoteMaps_of_takes {turns : ℕ} {l : Λ} {s sent : Store H kind} {types : List η}
    (distinct : types.Nodup)
    (takes : ∀ h ∈ types, H.label h = l → Takes f turns h (s.maps h) (sent.maps h))
    (rest : List UInt8) :
    receiveRemoteMaps f turns l s types (sendRemoteMaps f l sent types ++ rest) =
      some (withMaps f l s sent types, rest) := by
  induction types generalizing s with
  | nil => simp [receiveRemoteMaps, sendRemoteMaps, withMaps]
  | cons h types ih =>
      obtain ⟨absent, distinct⟩ := List.nodup_cons.mp distinct
      rw [sendRemoteMaps, receiveRemoteMaps, List.append_assoc]
      by_cases own : H.label h = l
      · have later : ∀ h' ∈ types, H.label h' = l →
            Takes f turns h' ((s.setMap h (takeIn f (s.maps h) (sent.maps h))).maps h')
              (sent.maps h') := by
          intro h' hmem label
          have other : h' ≠ h := fun same => absent (same ▸ hmem)
          simp only [Store.setMap, Function.update_of_ne other]
          exact takes h' (List.mem_cons_of_mem _ hmem) label
        rw [if_pos own, if_pos own, receiveMap_of_takes f (takes h List.mem_cons_self own),
          Option.bind_eq_bind, Option.bind_some]
        apply (ih distinct later).trans
        congr 2
        rw [withMaps, withMaps, Store.setMap, Store.mk.injEq]
        refine ⟨rfl, ?_⟩
        funext h'
        by_cases here : h' = h
        · subst here
          simp [absent, own]
        · simp [here]
      · rw [if_neg own, if_neg own, List.nil_append,
          ih distinct fun h' hmem => takes h' (List.mem_cons_of_mem _ hmem)]
        congr 2
        rw [withMaps, withMaps, Store.mk.injEq]
        refine ⟨rfl, ?_⟩
        funext h'
        by_cases here : h' = h
        · subst here
          simp [own]
        · simp [here]

omit [DecidableEq ν] in
/-- When the reader comes to an end, it took each map in. -/
theorem takes_of_receiveRemoteMaps {turns : ℕ} {l : Λ} {s sent : Store H kind} {types : List η}
    (inMemory : ∀ h ∈ types, (sent.maps h).super.size < 2 ^ 64) (distinct : types.Nodup)
    {rest : List UInt8} {r : Store H kind × List UInt8}
    (ends : receiveRemoteMaps f turns l s types (sendRemoteMaps f l sent types ++ rest) = some r) :
    ∀ h ∈ types, H.label h = l → Takes f turns h (s.maps h) (sent.maps h) := by
  induction types generalizing s with
  | nil => simp
  | cons h types ih =>
      obtain ⟨absent, distinct⟩ := List.nodup_cons.mp distinct
      have inMemory' := fun h' hmem => inMemory h' (List.mem_cons_of_mem h hmem)
      rw [sendRemoteMaps, receiveRemoteMaps, List.append_assoc] at ends
      by_cases own : H.label h = l
      · rw [if_pos own, if_pos own] at ends
        by_cases takes : Takes f turns h (s.maps h) (sent.maps h)
        · rw [receiveMap_of_takes f takes, Option.bind_eq_bind, Option.bind_some] at ends
          intro h' hmem label
          rcases List.mem_cons.mp hmem with rfl | hmem
          · exact takes
          · have later := ih inMemory' distinct ends h' hmem label
            have other : h' ≠ h := fun same => absent (same ▸ hmem)
            simpa only [Store.setMap, Function.update_of_ne other] using later
        · rw [receiveMap_of_not_takes f (inMemory h List.mem_cons_self) takes,
            Option.bind_eq_bind, Option.bind_none] at ends
          cases ends
      · rw [if_neg own, if_neg own, List.nil_append] at ends
        intro h' hmem label
        rcases List.mem_cons.mp hmem with rfl | hmem
        · exact absurd label own
        · exact ih inMemory' distinct ends h' hmem label

/-- The receiver's store when the reader has come to an end. -/
def arrived (s sent : Store H kind) : Store H kind :=
  withHolders (withMaps f p.label s sent p.types) sent p.names

theorem receiveStoreValues_of_takes {turns : ℕ} {s sent : Store H kind}
    (takes : ∀ h ∈ p.types, H.label h = p.label → Takes f turns h (s.maps h) (sent.maps h))
    (rest : List UInt8) :
    receiveStoreValues f p turns s (sendStoreValues f p sent ++ rest) =
      some (arrived f p s sent, rest) := by
  simp only [receiveStoreValues, sendStoreValues, List.append_assoc, passStamp_stamp,
    Option.bind_eq_bind, Option.bind_some, receiveRemoteMaps_of_takes f p.distinct takes]
  exact receiveHolders_send f _ sent p.names rest

theorem takes_of_receiveStoreValues {turns : ℕ} {s sent : Store H kind}
    (inMemory : ∀ h ∈ p.types, (sent.maps h).super.size < 2 ^ 64) {rest : List UInt8}
    {r : Store H kind × List UInt8}
    (ends : receiveStoreValues f p turns s (sendStoreValues f p sent ++ rest) = some r) :
    ∀ h ∈ p.types, H.label h = p.label → Takes f turns h (s.maps h) (sent.maps h) := by
  simp only [receiveStoreValues, sendStoreValues, List.append_assoc, passStamp_stamp,
    Option.bind_eq_bind, Option.bind_some] at ends
  obtain ⟨r', maps, -⟩ := Option.bind_eq_some_iff.mp ends
  exact takes_of_receiveRemoteMaps f inMemory p.distinct maps

end Wire

end MixT.Serialization
