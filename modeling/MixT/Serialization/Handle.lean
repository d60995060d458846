import MixT.Library.Serial
import MixT.Pgsql.ObjectBuffer

/-!
# Handles in bytes

A handle is sent as a flag, the size and the name of its object, and the object's own
bytes behind the id of its class. A process without a store for the class keeps those
bytes as they are and can send them on.
-/

namespace MixT.Serialization

open Library
open Pgsql (Table)

inductive Level
  | causal
  | strong
  deriving DecidableEq, Repr

def Level.toInt32 : Level → Int32
  | causal => 0
  | strong => 1

def tableInt32 : Table → Int32
  | .blobStore => 0
  | .intStore => 1

/-- A row of a store: what `GSQLObject` keeps of it, with the name as a `long`. -/
structure GSQLObject where
  level : Level
  table : Table
  key : Int64
  size : UInt64
  storeId : Int32
  deriving DecidableEq

/-- Which object a handle is to. -/
structure ObjectId where
  level : Level
  table : Table
  name : Int64
  deriving DecidableEq

/-- A process: the levels it has stores for, and the ids of those. -/
structure Process where
  hasStore : Level → Bool
  instanceId : Level → Int32

namespace GSQLObject

def id (o : GSQLObject) : ObjectId := ⟨o.level, o.table, o.key⟩

def bytesSize (_ : GSQLObject) : ℕ := 4 * 3 + 4 + 4

/-- Three `int`s, the level and the table. -/
def toBytes (o : GSQLObject) : List UInt8 :=
  Serial.int32.toBytes o.key.toInt32 ++ (Serial.int32.toBytes o.size.toUInt32.toInt32 ++
    (Serial.int32.toBytes o.storeId ++ (Serial.int32.toBytes o.level.toInt32 ++
      Serial.int32.toBytes (tableInt32 o.table))))

/-- `arrl[0]` and `arrt[0]`. -/
def readLevel (v : List UInt8) : Level :=
  if Serial.int32.fromBytes (v.drop 12) = 0 then .causal else .strong

def readTable (v : List UInt8) : Table :=
  if Serial.int32.fromBytes (v.drop 16) = 0 then .blobStore else .intStore

/-- The constructor from bytes, with the store of the recorded level. -/
def fromBytes (p : Process) (v : List UInt8) : GSQLObject where
  level := readLevel v
  table := readTable v
  key := (Serial.int32.fromBytes v).toInt64
  size := (Serial.int32.fromBytes (v.drop 4)).toInt64.toUInt64
  storeId := p.instanceId (readLevel v)

theorem length_toBytes (o : GSQLObject) : o.toBytes.length = o.bytesSize := by
  simp [toBytes, Serial.length_toBytes, bytesSize]

end GSQLObject

/-- `sqlobject_inherit_id`. -/
def sqlobjectInheritId : Level → UInt64
  | .causal => 498645
  | .strong => 498646

/-- What is behind a handle: a row, or the bytes of one that no store here matches. -/
inductive RemoteObject
  | sql (o : GSQLObject)
  | unmatched (storedId : UInt64) (bytes : List UInt8) (name : Int64)

namespace RemoteObject

def serialUuid : RemoteObject → UInt64
  | sql o => sqlobjectInheritId o.level
  | unmatched storedId _ _ => storedId

def name : RemoteObject → Int64
  | sql o => o.key
  | unmatched _ _ name => name

def bytesSize : RemoteObject → ℕ
  | sql o => o.bytesSize
  | unmatched _ bytes _ => bytes.length

def toBytes : RemoteObject → List UInt8
  | sql o => o.toBytes
  | unmatched _ bytes _ => bytes

theorem length_toBytes (r : RemoteObject) : r.toBytes.length = r.bytesSize := by
  cases r with
  | sql o => exact o.length_toBytes
  | unmatched => rfl

/-- The remote object is the object. -/
def Denotes (o : ObjectId) : RemoteObject → Prop
  | sql g => g.id = o
  | unmatched storedId bytes name =>
      storedId = sqlobjectInheritId o.level ∧ GSQLObject.readLevel bytes = o.level ∧
        GSQLObject.readTable bytes = o.table ∧ name = o.name

end RemoteObject

/-- The stored types by which a store picks the operations of its handles. -/
inductive StoredType
  | set
  | int
  | other
  deriving DecidableEq

inductive OperationName
  | increment
  | clone
  | insert
  deriving DecidableEq

/-- A handle type: the type behind it and the operations it supports. -/
structure HandleType where
  stored : StoredType
  supported : List OperationName

/-- `SQLHandle`. -/
def sqlHandle (stored : StoredType) : HandleType :=
  ⟨stored, match stored with
    | .set => [.insert]
    | .int => [.increment]
    | .other => []⟩

/-- A handle, null or to an object. -/
structure Handle where
  ro : Option RemoteObject

/-- The ids of classes as they are recorded, and what debug builds append to a handle. -/
structure Format where
  ids : Serial UInt64
  nonce : List UInt8

namespace Handle

variable (f : Format)

/-- `to_bytes`: the object is written by `inherit_to_bytes`, its class's id first. -/
def toBytes (h : Handle) : List UInt8 :=
  match h.ro with
  | some ro =>
      Serial.bool.toBytes true ++ (Serial.uint64.toBytes (UInt64.ofNat ro.bytesSize) ++
        (Serial.int64.toBytes ro.name ++ (f.ids.toBytes ro.serialUuid ++ (ro.toBytes ++ f.nonce))))
  | none => Serial.bool.toBytes false ++ f.nonce

def bytesSize (h : Handle) : ℕ :=
  f.nonce.length + 1 +
    match h.ro with
    | some ro => f.ids.bytesSize ro.serialUuid + ro.bytesSize + 8 + 8
    | none => 0

theorem length_toBytes (h : Handle) : (h.toBytes f).length = h.bytesSize f := by
  cases hro : h.ro with
  | none => simp [toBytes, bytesSize, hro, Serial.length_toBytes, Nat.add_comm]
  | some ro =>
      simp [toBytes, bytesSize, hro, Serial.length_toBytes, ro.length_toBytes]
      omega

end Handle

/-- The class that is registered for an id. -/
def Process.dispatch (p : Process) (id : UInt64) : Option Level :=
  [Level.causal, Level.strong].find? fun l => p.hasStore l && sqlobjectInheritId l == id

/-- `from_bytes`, with `none` for a null pointer: the store wraps the object in a handle of its own
type, which is cast to the type asked for. -/
def Handle.fromBytes (f : Format) (p : Process) (type : HandleType) (v : List UInt8) :
    Option Handle :=
  if Serial.bool.fromBytes v then
    let size := Serial.uint64.fromBytes (v.drop 1)
    let name := Serial.int64.fromBytes (v.drop 9)
    let (id, buffer) := f.ids.receive (v.drop 17)
    match p.dispatch id with
    | some _ =>
        if type.supported = (sqlHandle type.stored).supported then
          some ⟨some (.sql (GSQLObject.fromBytes p buffer))⟩
        else none
    | none => some ⟨some (.unmatched id (buffer.take size.toNat) name)⟩
  else some ⟨none⟩

/-- The handle is null, or to the object. -/
def Handle.RefersTo (o : Option ObjectId) (h : Handle) : Prop :=
  match o, h.ro with
  | none, none => True
  | some o, some ro => ro.Denotes o
  | _, _ => False

/-- Along a chain of processes the handle is always to the same object, and at each hop its size
is the number of bytes written and of bytes read. -/
def Survives (f : Format) (type : HandleType) (o : Option ObjectId) : Handle → List Process → Prop
  | _, [] => True
  | h, p :: hops =>
      (h.toBytes f).length = h.bytesSize f ∧
        ∃ h', (∀ rest, Handle.fromBytes f p type (h.toBytes f ++ rest) = some h') ∧
          h'.RefersTo o ∧ h'.bytesSize f = (h.toBytes f).length ∧ Survives f type o h' hops

/-- The name keeps its value in an `int`. -/
def FitsInt (name : Int64) : Prop := -2 ^ 31 ≤ name.toInt ∧ name.toInt < 2 ^ 31

theorem toInt32_toInt64_eq_iff (name : Int64) : name.toInt32.toInt64 = name ↔ FitsInt name := by
  rw [← Int64.toInt_inj, Int32.toInt_toInt64, Int64.toInt_toInt32, FitsInt, Int.bmod_def]
  split <;> omega

/-- A process dispatches on the id of a level exactly when it has a store for it. -/
theorem dispatch_isSome (p : Process) (l : Level) :
    (p.dispatch (sqlobjectInheritId l)).isSome = p.hasStore l := by
  cases l <;> cases hc : p.hasStore .causal <;> cases hs : p.hasStore .strong <;>
    simp [Process.dispatch, sqlobjectInheritId, hc, hs]

namespace GSQLObject

theorem fromBytes_readLevel (o : GSQLObject) (rest : List UInt8) :
    readLevel (o.toBytes ++ rest) = o.level := by
  have at12 : (o.toBytes ++ rest).drop 12 = Serial.int32.toBytes o.level.toInt32 ++
      (Serial.int32.toBytes (tableInt32 o.table) ++ rest) := by
    simp only [toBytes, List.append_assoc]
    rw [Serial.drop_toBytes _ (w := 4) _ rfl _ 8, Serial.drop_toBytes _ (w := 4) _ rfl _ 4,
      Serial.drop_toBytes _ (w := 4) _ rfl _ 0, List.drop_zero]
  rw [readLevel, at12, Serial.fromBytes_toBytes]
  cases o.level <;> rfl

theorem fromBytes_readTable (o : GSQLObject) (rest : List UInt8) :
    readTable (o.toBytes ++ rest) = o.table := by
  have at16 : (o.toBytes ++ rest).drop 16 =
      Serial.int32.toBytes (tableInt32 o.table) ++ rest := by
    simp only [toBytes, List.append_assoc]
    rw [Serial.drop_toBytes _ (w := 4) _ rfl _ 12, Serial.drop_toBytes _ (w := 4) _ rfl _ 8,
      Serial.drop_toBytes _ (w := 4) _ rfl _ 4, Serial.drop_toBytes _ (w := 4) _ rfl _ 0,
      List.drop_zero]
  rw [readTable, at16, Serial.fromBytes_toBytes]
  cases o.table <;> rfl

/-- A row as it is read back: the store is the reader's, and name and size went through an
`int`. -/
def readBack (p : Process) (o : GSQLObject) : GSQLObject :=
  ⟨o.level, o.table, o.key.toInt32.toInt64, o.size.toUInt32.toInt32.toInt64.toUInt64,
    p.instanceId o.level⟩

theorem fromBytes_toBytes (p : Process) (o : GSQLObject) (rest : List UInt8) :
    fromBytes p (o.toBytes ++ rest) = readBack p o := by
  have key : Serial.int32.fromBytes (o.toBytes ++ rest) = o.key.toInt32 := by
    rw [toBytes, List.append_assoc, Serial.fromBytes_toBytes]
  have size : Serial.int32.fromBytes ((o.toBytes ++ rest).drop 4) = o.size.toUInt32.toInt32 := by
    simp only [toBytes, List.append_assoc]
    rw [Serial.drop_toBytes _ (w := 4) _ rfl _ 0, List.drop_zero, Serial.fromBytes_toBytes]
  simp only [readBack, fromBytes, fromBytes_readLevel, fromBytes_readTable, key, size]

end GSQLObject

/-- What a handle to the object carries on its way: the row, or the bytes of one whose name is
cut the same way. -/
inductive Carries (o : ObjectId) : RemoteObject → Prop
  | sql {g : GSQLObject} (same : g.id = o) : Carries o (.sql g)
  | unmatched {g : GSQLObject} (level : g.level = o.level) (table : g.table = o.table)
      (cut : g.key.toInt32 = o.name.toInt32) :
      Carries o (.unmatched (sqlobjectInheritId o.level) g.toBytes o.name)

namespace Carries

variable {o : ObjectId} {r : RemoteObject}

theorem serialUuid_eq (h : Carries o r) : r.serialUuid = sqlobjectInheritId o.level := by
  cases h with
  | sql same => exact congrArg (fun o => sqlobjectInheritId o.level) same
  | unmatched => rfl

theorem name_eq (h : Carries o r) : r.name = o.name := by
  cases h with
  | sql same => exact congrArg ObjectId.name same
  | unmatched => rfl

theorem bytesSize_eq (h : Carries o r) : r.bytesSize = 20 := by
  cases h with
  | sql => rfl
  | unmatched => exact GSQLObject.length_toBytes _

theorem toBytes_eq (h : Carries o r) :
    ∃ g : GSQLObject, r.toBytes = g.toBytes ∧ g.level = o.level ∧ g.table = o.table ∧
      g.key.toInt32 = o.name.toInt32 := by
  cases h with
  | @sql g same => exact ⟨g, rfl, by rw [← same]; exact ⟨rfl, rfl, rfl⟩⟩
  | @unmatched g level table cut => exact ⟨g, rfl, level, table, cut⟩

theorem denotes (h : Carries o r) : r.Denotes o := by
  cases h with
  | sql same => exact same
  | @unmatched g level table cut =>
      have readsLevel := g.fromBytes_readLevel []
      have readsTable := g.fromBytes_readTable []
      rw [List.append_nil] at readsLevel readsTable
      exact ⟨rfl, readsLevel.trans level, readsTable.trans table, rfl⟩

end Carries

/-- What a process reads from the bytes of a handle that carries an object. -/
theorem fromBytes_carried (f : Format) (type : HandleType) {o : ObjectId} {r : RemoteObject}
    (h : Carries o r) (p : Process) :
    ∃ g : GSQLObject, g.level = o.level ∧ g.table = o.table ∧ g.key.toInt32 = o.name.toInt32 ∧
      ∀ rest, Handle.fromBytes f p type (Handle.toBytes f ⟨some r⟩ ++ rest) =
        if p.hasStore o.level then
          if type.supported = (sqlHandle type.stored).supported then
            some ⟨some (.sql (g.readBack p))⟩
          else none
        else some ⟨some (.unmatched (sqlobjectInheritId o.level) g.toBytes o.name)⟩ := by
  obtain ⟨g, bytes, level, table, cut⟩ := h.toBytes_eq
  refine ⟨g, level, table, cut, fun rest => ?_⟩
  have layout : Handle.toBytes f ⟨some r⟩ ++ rest =
      Serial.bool.toBytes true ++ (Serial.uint64.toBytes 20 ++ (Serial.int64.toBytes o.name ++
        (f.ids.toBytes (sqlobjectInheritId o.level) ++ (g.toBytes ++ (f.nonce ++ rest))))) := by
    simp only [Handle.toBytes, h.bytesSize_eq, h.name_eq, h.serialUuid_eq, bytes,
      List.append_assoc]
    rfl
  have taken : (g.toBytes ++ (f.nonce ++ rest)).take (20 : UInt64).toNat = g.toBytes :=
    List.take_left' g.length_toBytes
  rw [layout, Handle.fromBytes, Serial.fromBytes_toBytes, if_pos rfl,
    Serial.drop_toBytes _ (w := 1) _ rfl _ 0, Serial.drop_toBytes _ (w := 1) _ rfl _ 8,
    Serial.drop_toBytes _ (w := 1) _ rfl _ 16, Serial.drop_toBytes _ (w := 8) _ rfl _ 0,
    Serial.drop_toBytes _ (w := 8) _ rfl _ 8, Serial.drop_toBytes _ (w := 8) _ rfl _ 0]
  simp only [List.drop_zero, Serial.fromBytes_toBytes, Serial.receive_toBytes, taken,
    GSQLObject.fromBytes_toBytes]
  have dispatch := dispatch_isSome p o.level
  cases hd : p.dispatch (sqlobjectInheritId o.level) with
  | none => simp [← dispatch, hd]
  | some l => simp [← dispatch, hd]

/-- Along a chain, a handle to an object stays one exactly when no process reads it as a row, or
when its name fits and the handle type is that of the store. -/
theorem carried_survives_iff (f : Format) (type : HandleType) {o : ObjectId} {r : RemoteObject}
    (h : Carries o r) (hops : List Process) :
    Survives f type (some o) ⟨some r⟩ hops ↔
      (∀ p ∈ hops, p.hasStore o.level = false) ∨
        (FitsInt o.name ∧ type.supported = (sqlHandle type.stored).supported) := by
  induction hops generalizing r with
  | nil => simp [Survives]
  | cons p hops ih =>
      obtain ⟨g, level, table, cut, reads⟩ := fromBytes_carried f type h p
      have written := Handle.length_toBytes f ⟨some r⟩
      have size : ∀ r', Carries o r' → Handle.bytesSize f ⟨some r'⟩ =
          (Handle.toBytes f ⟨some r⟩).length := by
        intro r' h'
        simp only [written, Handle.bytesSize, h.bytesSize_eq, h'.bytesSize_eq, h.serialUuid_eq,
          h'.serialUuid_eq]
      have next : ∀ r', Carries o r' →
          (∀ rest, Handle.fromBytes f p type (Handle.toBytes f ⟨some r⟩ ++ rest) =
            some ⟨some r'⟩) →
          (Survives f type (some o) ⟨some r⟩ (p :: hops) ↔
            Survives f type (some o) ⟨some r'⟩ hops) := by
        intro r' h' reads'
        constructor
        · rintro ⟨-, h'', reads'', -, -, later⟩
          have same := (reads' []).symm.trans (reads'' [])
          exact (Option.some.inj same) ▸ later
        · exact fun later => ⟨written, _, reads', h'.denotes, size r' h', later⟩
      cases hasStore : p.hasStore o.level with
      | false =>
          simp only [hasStore, Bool.false_eq_true, if_false] at reads
          rw [next _ (.unmatched level table cut) reads, ih (.unmatched level table cut)]
          simp [hasStore]
      | true =>
          simp only [hasStore, if_true] at reads
          have some_reads : ¬ ∀ q ∈ p :: hops, q.hasStore o.level = false := by
            intro none_reads
            have := none_reads p (List.mem_cons_self ..)
            simp [hasStore] at this
          rw [or_iff_right some_reads]
          by_cases own : type.supported = (sqlHandle type.stored).supported
          · simp only [own, if_true] at reads
            have id : (g.readBack p).id = ⟨o.level, o.table, o.name.toInt32.toInt64⟩ := by
              simp only [GSQLObject.id, GSQLObject.readBack, level, table, cut]
            by_cases fits : FitsInt o.name
            · have same : (g.readBack p).id = o := by
                rw [id, (toInt32_toInt64_eq_iff o.name).mpr fits]
              rw [next _ (.sql same) reads, ih (.sql same)]
              simp [own, fits]
            · apply iff_of_false
              · rintro ⟨-, h', reads', refers, -⟩
                obtain rfl : _ = h' := Option.some.inj ((reads []).symm.trans (reads' []))
                have same : (g.readBack p).id = o := refers
                rw [id] at same
                exact fits ((toInt32_toInt64_eq_iff o.name).mp (congrArg ObjectId.name same))
              · exact fun both => fits both.1
          · simp only [own, if_false] at reads
            apply iff_of_false
            · rintro ⟨-, h', reads', -⟩
              simpa using (reads []).symm.trans (reads' [])
            · exact fun both => own both.2

/-- A null handle stays null. -/
theorem null_survives (f : Format) (type : HandleType) (hops : List Process) :
    Survives f type none ⟨none⟩ hops := by
  induction hops with
  | nil => trivial
  | cons p hops ih =>
      refine ⟨Handle.length_toBytes f _, ⟨none⟩, fun rest => ?_, trivial,
        (Handle.length_toBytes f _).symm, ih⟩
      have flag : Serial.bool.fromBytes (Handle.toBytes f ⟨none⟩ ++ rest) = false := by
        rw [Handle.toBytes, List.append_assoc, Serial.fromBytes_toBytes]
      rw [Handle.fromBytes, flag]
      rfl

/-- A handle survives a chain of processes exactly when it is null, or only passed on, or its name
fits in an `int` and its type is the store's own handle type. -/
theorem survives_iff (f : Format) (type : HandleType) (ro : Option GSQLObject)
    (hops : List Process) :
    Survives f type (ro.map GSQLObject.id) ⟨ro.map .sql⟩ hops ↔
      ∀ g, ro = some g → (∀ p ∈ hops, p.hasStore g.level = false) ∨
        (FitsInt g.key ∧ type.supported = (sqlHandle type.stored).supported) := by
  cases ro with
  | none => exact iff_of_true (null_survives f type hops) (by simp)
  | some g =>
      have carried : Carries g.id (.sql g) := .sql rfl
      exact (carried_survives_iff f type carried hops).trans (by simp [GSQLObject.id])

/-- A strong row of an unlimited name. -/
def farRow : GSQLObject := ⟨.strong, .blobStore, 4294967301, 40, 0⟩

def everyStore : Process := ⟨fun _ => true, fun _ => 0⟩

/-- Its handle is read back as one to the row named 5. -/
theorem farRow_lost :
    ¬ Survives ⟨Serial.uint64, []⟩ (sqlHandle .other) (some farRow.id) ⟨some (.sql farRow)⟩
      [everyStore] := by
  intro survives
  have carried : Carries farRow.id (.sql farRow) := .sql rfl
  obtain unread | ⟨fits, -⟩ := (carried_survives_iff _ _ carried _).mp survives
  · simpa [everyStore] using unread everyStore (List.mem_cons_self ..)
  · exact absurd fits.2 (by decide)

end MixT.Serialization
