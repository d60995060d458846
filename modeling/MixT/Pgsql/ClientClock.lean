import MixT.Pgsql.NumberingTrigger
import Mathlib.Tactic.FinCases

/-! # The clock of a client

A client keeps one clock for its store. Loading an object may join the object's vector
into it, and each put sends its components along. -/

namespace MixT.Pgsql

open Library.Runs

section StdMax

variable {a b : VersionVector}

/-- `operator<` of `std::array`, which is lexicographic. -/
def arrayLt (a b : VersionVector) : Prop :=
  a 0 < b 0 ∨ a 0 = b 0 ∧ (a 1 < b 1 ∨ a 1 = b 1 ∧ (a 2 < b 2 ∨ a 2 = b 2 ∧ a 3 < b 3))

instance : Decidable (arrayLt a b) := by
  unfold arrayLt
  infer_instance

/-- The `max` that `GSQLObject::load` finds: `std::max`, and not `ends::max`. -/
def stdMax (a b : VersionVector) : VersionVector := if arrayLt a b then b else a

theorem vector_le_iff : a ≤ b ↔ a 0 ≤ b 0 ∧ a 1 ≤ b 1 ∧ a 2 ≤ b 2 ∧ a 3 ≤ b 3 := by
  constructor
  · exact fun h => ⟨h 0, h 1, h 2, h 3⟩
  · rintro ⟨h0, h1, h2, h3⟩ c
    fin_cases c <;> assumption

/-- The lexicographic maximum is above both vectors exactly when they are comparable. -/
theorem le_stdMax_iff : a ≤ stdMax a b ∧ b ≤ stdMax a b ↔ a ≤ b ∨ b ≤ a := by
  unfold stdMax
  split
  · rename_i lt
    refine ⟨fun h => Or.inl h.1, fun h => ⟨h.resolve_right fun hle => ?_, le_rfl⟩⟩
    unfold arrayLt at lt
    rw [vector_le_iff] at hle
    omega
  · rename_i lt
    refine ⟨fun h => Or.inr h.2, fun h => ⟨le_rfl, h.elim (fun hle => ?_) id⟩⟩
    unfold arrayLt at lt
    rw [vector_le_iff] at hle ⊢
    omega

end StdMax

/-- `max_ver_check_size`. -/
def maxVerCheckSize : ℕ := 100

/-- The cached size and version of a causal `GSQLObject`. A size of -1 is a large one. -/
structure CachedVersion where
  size : ℕ
  causalVers : VersionVector

abbrev Name := ℤ

/-- A causal `SQLStore` with the objects loaded through it. -/
structure CausalClient where
  clock : VersionVector
  objects : Name → CachedVersion

namespace CausalClient

/-- `GSQLObject::load`, where the readable row of the object has the vector `stored` and
data of the given size. -/
def load (s : CausalClient) (o : Name) (stored : VersionVector) (size : ℕ) : CausalClient :=
  let cached := s.objects o
  if maxVerCheckSize ≤ cached.size then
    if stored = cached.causalVers then s
    else ⟨stdMax s.clock stored, Function.update s.objects o ⟨size, stored⟩⟩
  else { s with objects := Function.update s.objects o ⟨size, stored⟩ }

/-- The vector that `update_data_c` writes for writer `own`, whose own component is left to
the store. -/
def written (s : CausalClient) (own : Fin 4) (assigned : ℤ) : VersionVector :=
  Function.update s.clock own assigned

/-- `SQLObject::put`: the update returns the vector of the row that it wrote. -/
def put (s : CausalClient) (own : Fin 4) (o : Name) (size : ℕ) (assigned : ℤ) : CausalClient :=
  { s with objects := Function.update s.objects o ⟨size, s.written own assigned⟩ }

end CausalClient

/-- What a client does with its objects. -/
inductive ClientAction
  | load (o : Name) (stored : VersionVector) (size : ℕ)
  | put (o : Name) (size : ℕ) (assigned : ℤ)

/-- A client with the vectors of the objects that it loaded. -/
structure ClientSession where
  client : CausalClient
  loaded : List VersionVector

namespace ClientSession

def step (own : Fin 4) (s : ClientSession) : ClientAction → Option ClientSession
  | .load o stored size => some ⟨s.client.load o stored size, stored :: s.loaded⟩
  | .put o size assigned => some { s with client := s.client.put own o size assigned }

/-- A client at the start, with the clock of a new store. -/
def start (objects : Name → CachedVersion) : ClientSession := ⟨⟨fun _ => 0, objects⟩, []⟩

/-- A load leaves the clock at or above itself and the loaded vector. A put writes a
vector at or above each loaded one, except in the writer's own component. -/
def Dominates (own : Fin 4) (s : ClientSession) (a : ClientAction) (s' : ClientSession) : Prop :=
  match a with
  | .load _ stored _ => s.client.clock ≤ s'.client.clock ∧ stored ≤ s'.client.clock
  | .put _ _ assigned => ∀ v ∈ s.loaded, ∀ c ≠ own, v c ≤ s.client.written own assigned c

/-- A load finds a vector that the clock is above already, or it checks the version of its
object, finds it changed, and the vector is above the clock. -/
def Joins (s : ClientSession) : ClientAction → Prop
  | .load o stored _ =>
      stored ≤ s.client.clock ∨
        maxVerCheckSize ≤ (s.client.objects o).size ∧ stored ≠ (s.client.objects o).causalVers ∧
          s.client.clock ≤ stored
  | .put _ _ _ => True

variable {own : Fin 4}

/-- A load joins the vector into the clock exactly where both are comparable and the
version is checked. -/
theorem load_dominates_iff {s s' : ClientSession} {o : Name} {stored : VersionVector} {size : ℕ}
    (h : s.step own (.load o stored size) = some s') :
    s.Dominates own (.load o stored size) s' ↔ s.Joins (.load o stored size) := by
  obtain rfl := Option.some.inj h
  simp only [Dominates, Joins, CausalClient.load]
  split
  · rename_i checks
    split
    · rename_i same
      simp [same]
    · rename_i differs
      rw [le_stdMax_iff]
      simp [checks, differs, or_comm]
  · rename_i unchecked
    simp [unchecked]

/-- The clock is at or above every loaded vector. -/
def Covered (s : ClientSession) : Prop := ∀ v ∈ s.loaded, v ≤ s.client.clock

theorem step_covered {s s' : ClientSession} {a : ClientAction} (h : s.step own a = some s')
    (joins : s.Joins a) (covered : s.Covered) : s'.Covered := by
  cases a with
  | load o stored size =>
      have dominates := (load_dominates_iff h).mpr joins
      obtain rfl := Option.some.inj h
      intro v hv
      obtain rfl | hv := List.mem_cons.mp hv
      · exact dominates.2
      · exact (covered v hv).trans dominates.1
  | put o size assigned =>
      obtain rfl := Option.some.inj h
      exact covered

/-- For every sequence of loads and puts through one store. -/
theorem dominates_iff (own : Fin 4) (objects : Name → CachedVersion) (acts : List ClientAction) :
    (∀ s a s', Takes (step own) (start objects) acts s a s' → s.Dominates own a s') ↔
      ∀ s a s', Takes (step own) (start objects) acts s a s' → s.Joins a := by
  constructor
  · intro dominates s a s' htakes
    cases a with
    | load o stored size =>
        have h := dominates s _ s' htakes
        obtain ⟨-, -, -, -, hstep⟩ := htakes
        exact (load_dominates_iff hstep).mp h
    | put o size assigned => trivial
  · intro joins s a s' htakes
    have covered : s.Covered := by
      refine visits_induction Covered (by simp [start, Covered]) ?_ (takes_before htakes)
      intro t b t' hb ht
      have hjoins := joins t b t' hb
      obtain ⟨-, -, -, -, hstep⟩ := hb
      exact step_covered hstep hjoins ht
    cases a with
    | load o stored size =>
        have h := joins s _ s' htakes
        obtain ⟨-, -, -, -, hstep⟩ := htakes
        exact (load_dominates_iff hstep).mpr h
    | put o size assigned =>
        intro v hv c hc
        simpa [CausalClient.written, hc] using covered v hv c

section Concurrent

/-- Two large objects, written concurrently by the first and by the second writer. -/
def concurrentLoads : List ClientAction :=
  [.load 1 ![0, 7, 0, 0] 200, .load 2 ![5, 0, 0, 0] 200]

/-- The second load replaces the clock `(0, 7, 0, 0)` by `(5, 0, 0, 0)`. -/
theorem concurrentLoads_lose :
    ¬ ∀ s a s', Takes (step 3) (start fun _ => ⟨200, fun _ => -1⟩) concurrentLoads s a s' →
      s.Dominates 3 a s' := by
  intro dominates
  have second := dominates _ (.load 2 ![5, 0, 0, 0] 200) _
    ⟨[.load 1 ![0, 7, 0, 0] 200], [], rfl, rfl, rfl⟩
  have kept : (7 : ℤ) ≤ 0 := second.1 1
  exact absurd kept (by decide)

end Concurrent

end ClientSession

end MixT.Pgsql
