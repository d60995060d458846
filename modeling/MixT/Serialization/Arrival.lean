import Mathlib.Algebra.Order.Ring.Nat
import Mathlib.Algebra.Order.BigOperators.Group.List
import MixT.Serialization.Environment
import MixT.Serialization.Handle

/-!
# What arrives of an environment

The store that was read back answers the later reads as the sender's would, as long as
the two agree on the variables and on the maps behind them. A transfer brings about that
agreement exactly when each remote holder's map is sent along with it, and the bytes of a
value say that it was bound.
-/

namespace MixT.Serialization

open Library

variable {τ η Λ ν : Type} {H : HostTypes τ η Λ} {kind : ν → Kind τ η}

section Agreement

variable [DecidableEq η]

/-- The same entries in the maps of some handle types. -/
def AgreeMaps (read : η → Prop) (maps maps' : Maps H) : Prop :=
  ∀ h, read h → (maps h).super = (maps' h).super

theorem AgreeMaps.update {read : η → Prop} {maps maps' : Maps H} (agree : AgreeMaps read maps maps')
    (h : η) (hread : read h) (name : Int64)
    (g : TypeHolder (H.Val (H.stored h)) → TypeHolder (H.Val (H.stored h))) :
    AgreeMaps read
      (Function.update maps h ((maps h).setEntry name (g ((maps h).entry name))))
      (Function.update maps' h ((maps' h).setEntry name (g ((maps' h).entry name)))) := by
  intro h' hread'
  by_cases here : h' = h
  · subst here
    simp only [Function.update_self, MapHolder.setEntry, MapHolder.entry, agree h' hread]
  · simp only [Function.update_of_ne here]
    exact agree h' hread'

/-- Two outcomes of a step: both throw, or the holders are the same and the maps agree. -/
def SameStep (read : η → Prop) {k : Kind τ η} (a b : Option (Holder H k × Maps H)) : Prop :=
  (a = none ∧ b = none) ∨
    ∃ x after after', a = some (x, after) ∧ b = some (x, after') ∧ AgreeMaps read after after'

omit [DecidableEq η] in
theorem SameStep.ite {read : η → Prop} {k : Kind τ η} (c : Prop) [Decidable c]
    {a a' b b' : Option (Holder H k × Maps H)} (then_ : SameStep read a b)
    (else_ : SameStep read a' b') :
    SameStep read (if c then a else a') (if c then b else b') := by
  by_cases h : c
  · rwa [if_pos h, if_pos h]
  · rwa [if_neg h, if_neg h]

/-- Changing the entry of the current handle. -/
theorem AgreeMaps.sameStep {read : η → Prop} {maps maps' : Maps H}
    (agree : AgreeMaps read maps maps') {h : η} (hread : read h) (r : RemoteHolder (H.Hnd h))
    (g : TypeHolder (H.Val (H.stored h)) → TypeHolder (H.Val (H.stored h))) :
    SameStep (k := .remote h) read
      (r.handleAt.map fun handle =>
        (r, Function.update maps h ((maps h).setEntry (H.name handle)
          (g ((maps h).entry (H.name handle))))))
      (r.handleAt.map fun handle =>
        (r, Function.update maps' h ((maps' h).setEntry (H.name handle)
          (g ((maps' h).entry (H.name handle)))))) := by
  cases r.handleAt with
  | none => exact Or.inl ⟨rfl, rfl⟩
  | some handle => exact Or.inr ⟨r, _, _, rfl, rfl, agree.update h hread _ g⟩

/-- A step that changes a variable does the same on maps that agree. -/
theorem act_agree {read : η → Prop} {maps maps' : Maps H} (agree : AgreeMaps read maps maps')
    (k : Kind τ η) (hread : ∀ h, k = .remote h → read h) (a : Action H k) (x : Holder H k) :
    SameStep read (act k a x maps) (act k a x maps') := by
  cases k with
  | value t => cases a <;> exact Or.inr ⟨_, _, _, rfl, rfl, agree⟩
  | type t => cases a <;> exact Or.inr ⟨_, _, _, rfl, rfl, agree⟩
  | remote h =>
      have reads : read h := hread h rfl
      cases a with
      | increment =>
          exact SameStep.ite (0 ≤ RemoteHolder.currPos x)
            (agree.sameStep reads x TypeHolder.increment) (Or.inr ⟨x, maps, maps', rfl, rfl, agree⟩)
      | incrementRemote => exact agree.sameStep reads _ TypeHolder.increment
      | bind v => exact agree.sameStep reads _ fun e => e.bind v.2
      | push v => exact agree.sameStep reads _ fun e => e.push v

omit [DecidableEq η] in
theorem get_agree {read : η → Prop} {maps maps' : Maps H} (agree : AgreeMaps read maps maps')
    (k : Kind τ η) (hread : ∀ h, k = .remote h → read h) (x : Holder H k) :
    get k x maps = get k x maps' := by
  cases k with
  | value t => rfl
  | type t => rfl
  | remote h => simp only [get, MapHolder.entry, agree h (hread h rfl)]

omit [DecidableEq η] in
theorem AgreeMaps.beginPhase {read : η → Prop} {maps maps' : Maps H}
    (agree : AgreeMaps read maps maps') :
    AgreeMaps read (fun h => (maps h).beginPhase) fun h => (maps' h).beginPhase := by
  intro h hread
  simp only [MapHolder.beginPhase, agree h hread]

/-- The handle types of the remote holders among some variables. -/
def RemoteOf (names : List ν) (kind : ν → Kind τ η) (h : η) : Prop := ∃ x ∈ names, kind x = .remote h

/-- An operation on one of the variables. -/
def StoreOp.On (names : List ν) : StoreOp H kind → Prop
  | .beginPhase => True
  | .act x _ => x ∈ names
  | .get x => x ∈ names

/-- Stores with the same holders of some variables, and the same entries behind them, give the
same answers about these. -/
theorem answers_agree [DecidableEq ν] {names : List ν} {s s' : Store H kind}
    (holders : ∀ x ∈ names, s.holders x = s'.holders x)
    (maps : AgreeMaps (RemoteOf names kind) s.maps s'.maps) (ops : List (StoreOp H kind))
    (on : ∀ op ∈ ops, op.On names) : answers s ops = answers s' ops := by
  induction ops generalizing s s' with
  | nil => rfl
  | cons op ops ih =>
      have later : ∀ op ∈ ops, op.On names := fun op hmem => on op (List.mem_cons_of_mem _ hmem)
      have first := on op List.mem_cons_self
      cases op with
      | beginPhase =>
          apply ih _ maps.beginPhase later
          intro x hx
          simp only [holders x hx]
      | act x a =>
          have step := act_agree maps (kind x) (fun h same => ⟨x, first, same⟩) a (s.holders x)
          simp only [answers, ← holders x first]
          rcases step with ⟨throws, throws'⟩ | ⟨h, after, after', does, does', agree⟩
          · simp only [throws, throws']
          · simp only [does, does']
            apply ih _ agree later
            intro y hy
            by_cases here : y = x
            · subst here
              simp
            · simp [here, holders y hy]
      | get x =>
          have same := get_agree maps (kind x) (fun h same => ⟨x, first, same⟩) (s.holders x)
          simp only [answers, ← holders x first, same]
          exact congrArg _ (ih holders maps later)

end Agreement

section Claim

variable (f : Formats H ν) [DecidableEq ν] [DecidableEq η] [DecidableEq Λ]
variable (p : Transfer Λ kind)

/-- The handle types a transfer is about: those of its label, and those of its remote holders. -/
def Transfer.About (H : HostTypes τ η Λ) (h : η) : Prop :=
  (h ∈ p.types ∧ H.label h = p.label) ∨ RemoteOf p.names kind h

/-- The sender's environment is in the receiver's store. -/
structure Arrives (sent before after : Store H kind) : Prop where
  holders : ∀ x ∈ p.names, after.holders x = sent.holders x
  otherHolders : ∀ x ∉ p.names, after.holders x = before.holders x
  entries : ∀ h ∈ p.types, H.label h = p.label → ∀ k : Int64,
    (after.maps h).super[k]? = (sent.maps h).super[k]?.or (before.maps h).super[k]?
  flags : f.debug = true → ∀ h ∈ p.types, H.label h = p.label →
    (after.maps h).isInitialized = (sent.maps h).isInitialized
  otherMaps : ∀ h, H.label h ≠ p.label → after.maps h = before.maps h
  fresh : ∀ h, p.About H h → (before.maps h).super = ∅ →
    (after.maps h).super = (sent.maps h).super
  later : (∀ h, p.About H h → (before.maps h).super = ∅) → ∀ ops : List (StoreOp H kind),
    (∀ op ∈ ops, op.On p.names) → answers after ops = answers sent ops

/-- What was written is read back, up to its last byte and no further. -/
def RoundTrips (sent before : Store H kind) : Prop :=
  ∀ rest, ∃ turns after,
    receiveStoreValues f p turns before (sendStoreValues f p sent ++ rest) = some (after, rest) ∧
      Arrives f p sent before after

/-- The values were bound, 32 bits can count the entries of each map, debug builds receive into
maps without other entries, and the map of a remote holder is one of the label if it has
entries that the receiver lacks. -/
structure Carried (sent before : Store H kind) : Prop where
  initialised : ∀ x ∈ p.names, Initialised (kind x) (sent.holders x)
  few : ∀ h ∈ p.types, H.label h = p.label → (sent.maps h).super.size < 2 ^ 32
  noOthers : f.debug = true → ∀ h ∈ p.types, H.label h = p.label →
    ∀ k ∈ (before.maps h).super, k ∈ (sent.maps h).super
  ownLabel : ∀ h, RemoteOf p.names kind h → H.label h ≠ p.label → (before.maps h).super = ∅ →
    (sent.maps h).super = ∅

variable {f p} {sent before : Store H kind}

theorem arrived_holders {x : ν} (hx : x ∈ p.names) :
    (arrived f p before sent).holders x = delivered (kind x) (sent.holders x) := by
  simp [arrived, withHolders, hx]

theorem arrived_map {h : η} (hmem : h ∈ p.types) (own : H.label h = p.label) :
    (arrived f p before sent).maps h = takeIn f (before.maps h) (sent.maps h) := by
  simp [arrived, withHolders, withMaps, hmem, own]

theorem arrived_otherMap {h : η} (other : H.label h ≠ p.label) :
    (arrived f p before sent).maps h = before.maps h := by
  simp [arrived, withHolders, withMaps, other]

theorem arrives_arrived (carried : Carried f p sent before) :
    Arrives f p sent before (arrived f p before sent) := by
  have holders : ∀ x ∈ p.names, (arrived f p before sent).holders x = sent.holders x := by
    intro x hx
    rw [arrived_holders hx]
    exact (delivered_eq_iff _ _).mpr (carried.initialised x hx)
  have fresh : ∀ h, p.About H h → (before.maps h).super = ∅ →
      ((arrived f p before sent).maps h).super = (sent.maps h).super := by
    intro h about empty
    by_cases own : H.label h = p.label
    · have hmem : h ∈ p.types := by
        rcases about with ⟨hmem, -⟩ | ⟨x, hx, remote⟩
        · exact hmem
        · exact p.covers x hx h remote
      rw [arrived_map hmem own, takeIn, empty, merged_empty]
    · have remote : RemoteOf p.names kind h := about.resolve_left fun both => own both.2
      rw [arrived_otherMap own, empty, carried.ownLabel h remote own empty]
  exact {
    holders
    otherHolders := fun x hx => by simp [arrived, withHolders, withMaps, hx]
    entries := fun h hmem own k => by rw [arrived_map hmem own, takeIn, merged_getElem?]
    flags := fun debug h hmem own => by simp [arrived_map hmem own, takeIn, debug]
    otherMaps := fun h other => arrived_otherMap other
    fresh
    later := fun empty ops on => answers_agree holders
      (fun h remote => fresh h (Or.inr remote) (empty h (Or.inr remote))) ops on }

/-- An environment is read back as it was written exactly when its values were bound, its maps can
be counted, its receiver holds no other entries in debug builds, and the maps of its remote
holders are sent along. -/
theorem roundTrips_iff (inMemory : ∀ h ∈ p.types, (sent.maps h).super.size < 2 ^ 64) :
    RoundTrips f p sent before ↔ Carried f p sent before := by
  constructor
  · intro trips
    obtain ⟨turns, after, reads, arrives⟩ := trips []
    have takes := takes_of_receiveStoreValues f p inMemory reads
    have result := receiveStoreValues_of_takes f p takes []
    rw [reads] at result
    obtain rfl : after = arrived f p before sent := congrArg Prod.fst (Option.some.inj result)
    exact {
      initialised := fun x hx => (delivered_eq_iff _ _).mp
        ((arrived_holders hx).symm.trans (arrives.holders x hx))
      few := fun h hmem own => (takes h hmem own).few
      noOthers := fun debug h hmem own => (takes h hmem own).noOthers debug
      ownLabel := fun h remote other empty => by
        have same := arrives.fresh h (Or.inr remote) empty
        rwa [arrived_otherMap other, empty, eq_comm] at same }
  · intro carried rest
    -- the loops need as many turns as the largest map has entries
    let turns := (p.types.map fun h => (sent.maps h).super.size).sum
    have takes : ∀ h ∈ p.types, H.label h = p.label →
        Takes f turns h (before.maps h) (sent.maps h) := by
      intro h hmem own
      refine ⟨carried.few h hmem own, ?_, fun debug => carried.noOthers debug h hmem own⟩
      exact List.le_sum_of_mem (List.mem_map_of_mem hmem)
    exact ⟨turns, _, receiveStoreValues_of_takes f p takes rest, arrives_arrived carried⟩

end Claim

section StrongRemote

/-- Numbers, and handles to numbers at both levels. -/
def numbers : HostTypes Unit Level Level where
  Val _ := Int64
  zero _ := 0
  Hnd _ := Int64
  stored _ := ()
  label := id
  name := id

def numberFormats : Formats numbers Unit where
  val _ := Serial.int64
  vec _ := Serial.int64.list
  handles _ := Serial.int64.list
  holderName _ := []
  entryName _ := []
  mapName _ := []
  simpleNonce := []
  debug := false

/-- A phase with a strong remote variable: one that binds it, or a causal one that steps over its
binding. -/
def phaseAt (l : Level) :
    Transfer Level fun _ : Unit => (Kind.remote Level.strong : Kind Unit Level) where
  label := l
  types := [.strong]
  distinct := List.nodup_singleton _
  names := [()]
  covers := by
    rintro x - h same
    cases same
    exact List.mem_cons_self
  nonce := []
  number := []

/-- The strong phase has read the row with the name five, which holds a seven. -/
def strongRead : Store numbers fun _ : Unit => Kind.remote Level.strong where
  holders _ := (⟨[(5 : Int64)], 0⟩ : RemoteHolder Int64)
  maps
    | .causal => ⟨∅, true⟩
    | .strong => (⟨∅, true⟩ : MapHolder Int64).setEntry 5 ⟨[7], 0, true⟩

def freshStore : Store numbers fun _ : Unit => Kind.remote Level.strong where
  holders _ := (⟨[], -1⟩ : RemoteHolder Int64)
  maps _ := ⟨∅, true⟩

/-- The strong phase itself does get the map. -/
theorem strongRead_kept : RoundTrips numberFormats (phaseAt .strong) strongRead freshStore := by
  have size : ∀ h : Level, (strongRead.maps h).super.size ≤ 1 := by
    intro h
    cases h with
    | causal => exact Nat.zero_le _
    | strong => exact Std.ExtTreeMap.size_insert_le
  refine (roundTrips_iff fun h _ => (size h).trans_lt (by decide)).mpr ⟨?_, ?_, ?_, ?_⟩
  · exact fun x _ => trivial
  · exact fun h _ _ => (size h).trans_lt (by decide)
  · exact fun debug => absurd debug (by decide)
  · rintro h ⟨x, -, same⟩ other
    cases same
    exact absurd rfl other

/-- The variable's handle reaches the causal phase, what was read through it does not. -/
theorem strongRead_lost : ¬ RoundTrips numberFormats (phaseAt .causal) strongRead freshStore := by
  intro trips
  obtain ⟨turns, after, -, arrives⟩ := trips []
  have lost : after.maps .strong = freshStore.maps .strong := arrives.otherMaps .strong (by decide)
  have handle : after.holders () = strongRead.holders () :=
    arrives.holders () List.mem_cons_self
  have same := arrives.later (fun h _ => rfl) [.get ()] fun op hmem => by
    rw [List.mem_singleton.mp hmem]
    exact List.mem_cons_self
  have unread : answers after [.get ()] = [⟨(), none⟩] := by
    simp only [answers, get, handle, lost]
    rfl
  have read : answers strongRead [.get ()] = [⟨(), some (7 : Int64)⟩] := by
    have entry : ((⟨∅, true⟩ : MapHolder Int64).setEntry 5 ⟨[7], 0, true⟩).entry 5 =
        ⟨[7], 0, true⟩ := Std.ExtTreeMap.getD_insert_self
    have current : get (Kind.remote Level.strong) (strongRead.holders ()) strongRead.maps =
        TypeHolder.get (((⟨∅, true⟩ : MapHolder Int64).setEntry 5 ⟨[7], 0, true⟩).entry 5) := rfl
    rw [answers, answers, current, entry]
    rfl
  rw [unread, read] at same
  cases same

end StrongRemote

end MixT.Serialization
