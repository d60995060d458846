import Mathlib.Data.Fin.Tuple.Basic
import Mathlib.Data.List.Induction
import Mathlib.Data.List.OfFn
import MixT.Tracking.ClientTracker

/-!
# When a client turns tracking on

A client compares, label by label, the newest clock it has seen with the clock
every replica has reached. Below it tracking is left out. The comparison of two
`std::array` values goes by the first entry in which they differ.
-/

namespace MixT.Tracking

/-- `std::lexicographical_compare`. -/
def lexicographicalCompare : List Int → List Int → Bool
  | [], [] => false
  | [], _ :: _ => true
  | _ :: _, [] => false
  | a :: as, b :: bs => decide (a < b) || (!decide (b < a) && lexicographicalCompare as bs)

/-- The first entry in which two vectors differ is larger in the first one. -/
def Ahead {n : ℕ} (a b : Fin n → Int) : Prop := ∃ i, b i < a i ∧ ∀ j < i, a j = b j

theorem ahead_succ {n : ℕ} (a b : Fin (n + 1) → Int) :
    Ahead a b ↔ b 0 < a 0 ∨ (a 0 = b 0 ∧ Ahead (Fin.tail a) (Fin.tail b)) := by
  simp only [Ahead, Fin.exists_fin_succ, Fin.forall_fin_succ, Fin.tail]
  constructor
  · rintro (⟨first, -⟩ | ⟨i, larger, equal, before⟩)
    · exact Or.inl first
    · exact Or.inr ⟨equal (Fin.succ_pos i), i, larger,
        fun j hj => before j (Fin.succ_lt_succ_iff.mpr hj)⟩
  · rintro (first | ⟨equal, i, larger, before⟩)
    · exact Or.inl ⟨first, by simp, by simp⟩
    · exact Or.inr ⟨i, larger, fun _ => equal,
        fun j hj => before j (Fin.succ_lt_succ_iff.mp hj)⟩

/-- `operator<` of `std::array`: only this one is found in `myria::tracker`, the pointwise
one of `ends` is not. -/
def arrayLess {n : ℕ} (a b : Fin n → Int) : Bool :=
  lexicographicalCompare (List.ofFn a) (List.ofFn b)

theorem arrayLess_succ {n : ℕ} (a b : Fin (n + 1) → Int) :
    arrayLess a b = (decide (a 0 < b 0) ||
      (!decide (b 0 < a 0) && arrayLess (Fin.tail a) (Fin.tail b))) := by
  rw [arrayLess, List.ofFn_succ, List.ofFn_succ]
  rfl

theorem arrayLess_iff {n : ℕ} (a b : Fin n → Int) : arrayLess a b = true ↔ Ahead b a := by
  induction n with
  | zero => simp [arrayLess, lexicographicalCompare, Ahead]
  | succ n ih =>
      rw [ahead_succ, arrayLess_succ]
      simp only [Bool.or_eq_true, Bool.and_eq_true, Bool.not_eq_true', decide_eq_true_eq,
        decide_eq_false_iff_not, ih]
      constructor
      · rintro (first | ⟨first, later⟩)
        · exact Or.inl first
        · by_cases smaller : a 0 < b 0
          · exact Or.inl smaller
          · exact Or.inr ⟨by omega, later⟩
      · rintro (first | ⟨equal, later⟩)
        · exact Or.inl first
        · exact Or.inr ⟨by omega, later⟩

/-- Of two vectors one is ahead, or they are equal. -/
theorem ahead_total {n : ℕ} (a b : Fin n → Int) : Ahead a b ∨ Ahead b a ∨ a = b := by
  induction n with
  | zero => exact Or.inr (Or.inr (Subsingleton.elim a b))
  | succ n ih =>
      rw [ahead_succ, ahead_succ]
      obtain first | first | first := lt_trichotomy (a 0) (b 0)
      · exact Or.inr (Or.inl (Or.inl first))
      · obtain rest | rest | rest := ih (Fin.tail a) (Fin.tail b)
        · exact Or.inl (Or.inr ⟨first, rest⟩)
        · exact Or.inr (Or.inl (Or.inr ⟨first.symm, rest⟩))
        · refine Or.inr (Or.inr ?_)
          rw [← Fin.cons_self_tail a, ← Fin.cons_self_tail b, first, rest]
      · exact Or.inl (Or.inl first)

theorem Ahead.asymm {n : ℕ} {a b : Fin n → Int} (h : Ahead a b) : ¬ Ahead b a := by
  rintro ⟨j, smaller, before'⟩
  obtain ⟨i, larger, before⟩ := h
  obtain hij | rfl | hji := lt_trichotomy i j
  · have := before' i hij
    omega
  · omega
  · have := before j hji
    omega

namespace TombHolder

def mustTrack (h : TombHolder) : Bool :=
  !(arrayLess h.maxRecentClock h.globalMinClock ||
    decide (List.ofFn h.maxRecentClock = List.ofFn h.globalMinClock))

theorem mustTrack_iff (h : TombHolder) :
    h.mustTrack = true ↔ Ahead h.maxRecentClock h.globalMinClock := by
  have total := ahead_total h.maxRecentClock h.globalMinClock
  rw [mustTrack, Bool.not_eq_true', Bool.or_eq_false_iff, decide_eq_false_iff_not,
    ← Bool.not_eq_true, arrayLess_iff, List.ofFn_inj]
  constructor
  · rintro ⟨notBehind, notEqual⟩
    apply total.resolve_right
    tauto
  · intro ahead
    refine ⟨ahead.asymm, fun equal => ?_⟩
    rw [equal] at ahead
    exact ahead.asymm ahead

end TombHolder

/-- The arguments of one call of `update_clocks`. -/
structure ClockUpdate (L : Type*) where
  phase : L
  globalMinClock : Clock
  recentClock : Clock

variable {L : Type*} [DecidableEq L]

namespace ClientTracker

def mustTrack (seq : LabelSequence L) (trk : ClientTracker L) : Bool :=
  seq.labels.any fun l => (trk l).mustTrack

/-- A fresh client after a sequence of calls. -/
def afterUpdates (updates : List (ClockUpdate L)) : ClientTracker L :=
  updates.foldl (fun trk u => trk.updateClocks u.phase u.globalMinClock u.recentClock) fresh

end ClientTracker

/-- The calls for one label. -/
def updatesOf (updates : List (ClockUpdate L)) (l : L) : List (ClockUpdate L) :=
  updates.filter fun u => u.phase = l

/-- The largest entries among the clocks, not below the zeros a client starts with. -/
def highest (clocks : List Clock) : Clock := clocks.foldr endsMax fun _ => 0

/-- The recent clocks of the label and its global-minimum clocks. -/
def recentClocks (updates : List (ClockUpdate L)) (l : L) : List Clock :=
  (updatesOf updates l).map ClockUpdate.recentClock

def globalMinClocks (updates : List (ClockUpdate L)) (l : L) : List Clock :=
  (updatesOf updates l).map ClockUpdate.globalMinClock

/-- Some recent clock of the label is above all its global-minimum clocks in the entry. -/
def Exceeds (updates : List (ClockUpdate L)) (l : L) (i : Fin 4) : Prop :=
  ∃ r ∈ recentClocks updates l, ∀ g ∈ globalMinClocks updates l, g i < r i

/-- Tracking is skipped exactly when no label's recent maximum exceeds its global minimum. -/
def SkipsSafely (seq : LabelSequence L) (updates : List (ClockUpdate L)) : Prop :=
  (ClientTracker.afterUpdates updates).mustTrack seq = false ↔
    ∀ l ∈ seq.labels, ∀ i, ¬ Exceeds updates l i

/-- At each label whose recent maximum is not the global minimum, the first entry in which they
differ is larger in the global minimum, although some recent entry exceeds. -/
def Hidden (seq : LabelSequence L) (updates : List (ClockUpdate L)) : Prop :=
  (∃ l ∈ seq.labels, ∃ i, Exceeds updates l i) ∧
    ∀ l ∈ seq.labels,
      ¬ Ahead (highest (recentClocks updates l)) (highest (globalMinClocks updates l))

theorem le_highest {clocks : List Clock} {c : Clock} (h : c ∈ clocks) (i : Fin 4) :
    c i ≤ highest clocks i := by
  induction clocks with
  | nil => simp at h
  | cons d rest ih =>
      obtain h | h := List.mem_cons.mp h
      · exact h ▸ le_max_left _ _
      · exact (ih h).trans (le_max_right _ _)

theorem highest_nonneg (clocks : List Clock) (i : Fin 4) : 0 ≤ highest clocks i := by
  induction clocks with
  | nil => exact le_rfl
  | cons d rest ih => exact ih.trans (le_max_right _ _)

/-- The largest entry is a zero or an entry of one of the clocks. -/
theorem highest_mem (clocks : List Clock) (i : Fin 4) :
    highest clocks i = 0 ∨ ∃ c ∈ clocks, highest clocks i = c i := by
  induction clocks with
  | nil => exact Or.inl rfl
  | cons d rest ih =>
      have step : highest (d :: rest) i = max (d i) (highest rest i) := rfl
      rw [step]
      obtain larger | larger := le_total (d i) (highest rest i)
      · rw [max_eq_right larger]
        apply ih.imp_right
        rintro ⟨c, hc, equal⟩
        exact ⟨c, List.mem_cons_of_mem _ hc, equal⟩
      · exact Or.inr ⟨d, List.mem_cons_self .., max_eq_left larger⟩

theorem highest_append (a b : List Clock) :
    highest (a ++ b) = endsMax (highest a) (highest b) := by
  ext i
  induction a with
  | nil => exact (max_eq_right (highest_nonneg b i)).symm
  | cons d rest ih =>
      calc
        highest (d :: rest ++ b) i = max (d i) (highest (rest ++ b) i) := rfl
        _ = max (d i) (max (highest rest i) (highest b i)) := by rw [ih]; rfl
        _ = max (max (d i) (highest rest i)) (highest b i) := (max_assoc _ _ _).symm

theorem highest_singleton (c : Clock) (rest : List Clock) :
    highest (rest ++ [c]) = endsMax (highest rest) c := by
  rw [highest_append]
  ext i
  have nonneg := highest_nonneg rest i
  simp only [highest, List.foldr_cons, List.foldr_nil, endsMax] at nonneg ⊢
  omega

/-- The clocks of a label's holder are the maxima over the calls for the label. -/
theorem afterUpdates_clocks (updates : List (ClockUpdate L)) (l : L) :
    (ClientTracker.afterUpdates updates l).maxRecentClock = highest (recentClocks updates l) ∧
    (ClientTracker.afterUpdates updates l).globalMinClock =
      highest (globalMinClocks updates l) := by
  induction updates using List.reverseRecOn with
  | nil => exact ⟨rfl, rfl⟩
  | append_singleton updates u ih =>
      have step : ClientTracker.afterUpdates (updates ++ [u]) =
          (ClientTracker.afterUpdates updates).updateClocks u.phase u.globalMinClock
            u.recentClock := by
        simp [ClientTracker.afterUpdates]
      rw [step, ClientTracker.updateClocks]
      by_cases here : u.phase = l
      · subst here
        simp only [Function.update_self, TombHolder.updateClocks, recentClocks, globalMinClocks,
          updatesOf, List.filter_append, List.map_append, decide_true, List.filter_cons_of_pos,
          List.filter_nil, List.map_cons, List.map_nil, highest_singleton, ih.1, ih.2, true_and]
        ext i
        exact max_comm _ _
      · rw [Function.update_of_ne (Ne.symm here)]
        simpa [recentClocks, globalMinClocks, updatesOf, here] using ih

theorem afterUpdates_mustTrack (seq : LabelSequence L) (updates : List (ClockUpdate L)) :
    (ClientTracker.afterUpdates updates).mustTrack seq = false ↔
      ∀ l ∈ seq.labels,
        ¬ Ahead (highest (recentClocks updates l)) (highest (globalMinClocks updates l)) := by
  simp only [ClientTracker.mustTrack, List.any_eq_false, TombHolder.mustTrack_iff,
    (afterUpdates_clocks updates _).1, (afterUpdates_clocks updates _).2]

/-- Where the recent maximum is ahead, some recent entry exceeds. -/
theorem exceeds_of_ahead {updates : List (ClockUpdate L)} {l : L}
    (h : Ahead (highest (recentClocks updates l)) (highest (globalMinClocks updates l))) :
    ∃ i, Exceeds updates l i := by
  obtain ⟨i, larger, -⟩ := h
  refine ⟨i, ?_⟩
  obtain zero | ⟨r, hr, equal⟩ := highest_mem (recentClocks updates l) i
  · have nonneg := highest_nonneg (globalMinClocks updates l) i
    omega
  · refine ⟨r, hr, fun g hg => ?_⟩
    calc
      g i ≤ highest (globalMinClocks updates l) i := le_highest hg i
      _ < highest (recentClocks updates l) i := larger
      _ = r i := equal

/-- Tracking is skipped exactly when it is safe, unless an exceeding entry stands behind a
smaller one at every label. -/
theorem skipsSafely_iff (seq : LabelSequence L) (updates : List (ClockUpdate L)) :
    SkipsSafely seq updates ↔ ¬ Hidden seq updates := by
  rw [SkipsSafely, afterUpdates_mustTrack, Hidden]
  constructor
  · rintro agrees ⟨⟨l, hl, i, exceeds⟩, notAhead⟩
    exact agrees.mp notAhead l hl i exceeds
  · intro notHidden
    constructor
    · intro notAhead l hl i exceeds
      exact notHidden ⟨⟨l, hl, i, exceeds⟩, notAhead⟩
    · intro safe l hl ahead
      obtain ⟨i, exceeds⟩ := exceeds_of_ahead ahead
      exact safe l hl i exceeds

/-- One label and one call: the second entry is newer than any replica's minimum, the first is
older. -/
theorem concurrentClocks_untracked :
    ¬ SkipsSafely (⟨[()], by simp⟩ : LabelSequence Unit)
      [⟨(), ![1, 0, 0, 0], ![0, 5, 0, 0]⟩] := by
  intro agrees
  have safe := agrees.mp (by decide) () (by simp) 1
  apply safe
  simp [Exceeds, recentClocks, globalMinClocks, updatesOf]

end MixT.Tracking
