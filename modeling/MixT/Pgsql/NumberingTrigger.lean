import Mathlib.Algebra.Order.Ring.Int
import Mathlib.Data.Finset.Lattice.Fold
import Mathlib.Data.Fintype.Basic
import Mathlib.Data.Fin.VecNotation
import Mathlib.Order.Fin.Basic
import MixT.Library.Runs

/-! # The numbering trigger of the causal store

An object of the causal store has one row that is read, of index 0, and rows of other
indices that the writers share. A trigger numbers each change of these rows and copies it
to the row that is read. -/

namespace MixT.Pgsql

open Library.Runs

/-- The columns `vc1` to `vc4`. -/
abbrev VersionVector := Fin 4 → ℤ

instance vector_nonempty : NeZero 4 := ⟨by decide⟩

/-- A row of the causal `BlobStore`, without its id and its index. -/
structure Row (D : Type*) where
  data : D
  vc : VersionVector
  lw : ℤ
  deriving DecidableEq

/-- The rows of one object: the readable row of index 0 and the rows of the indices `ι`. -/
structure Blob (ι D : Type*) where
  readable : Row D
  rows : ι → Row D

section Trigger

variable {ι D : Type*} [Fintype ι] [Inhabited ι] [DecidableEq ι] [DecidableEq D]

/-- `CASE NEW.lw`: the component of the last writer gets the counter; `none` where the
trigger raises an exception. -/
def assignCounter (cntr : ℤ) (new : Row D) : Option (Row D) :=
  if new.lw = 1 then some { new with vc := Function.update new.vc 0 cntr }
  else if new.lw = 2 then some { new with vc := Function.update new.vc 1 cntr }
  else if new.lw = 3 then some { new with vc := Function.update new.vc 2 cntr }
  else if new.lw = 4 then some { new with vc := Function.update new.vc 3 cntr }
  else none

/-- `SELECT MAX(b.vc)` over the rows of the object whose index is not 0. -/
def maxVc (rows : ι → Row D) : VersionVector := fun c =>
  Finset.univ.sup' Finset.univ_nonempty fun i => (rows i).vc c

/-- `blobstore_numbering`, before the update of row `i` to `new` is done: the row to store
and the new readable row. The maximum still sees the old row. -/
def blobstoreNumbering (cntr : ℤ) (b : Blob ι D) (new : Row D) : Option (Row D × Row D) :=
  (assignCounter cntr new).map fun new =>
    (new, { b.readable with data := new.data, vc := fun c => max (maxVc b.rows c) (new.vc c) })

/-- An update of row `i` to `new`. The trigger runs when the data changes. -/
def Blob.update (cntr : ℤ) (b : Blob ι D) (i : ι) (new : Row D) : Option (Blob ι D) :=
  if (b.rows i).data = new.data then some { b with rows := Function.update b.rows i new }
  else (blobstoreNumbering cntr b new).map fun r => ⟨r.2, Function.update b.rows i r.1⟩

end Trigger

section Max

variable {ι D : Type*} [Fintype ι] [Inhabited ι] [DecidableEq ι]

omit [DecidableEq ι] in
theorem maxVc_le_iff {rows : ι → Row D} {c : Fin 4} {x : ℤ} :
    maxVc rows c ≤ x ↔ ∀ i, (rows i).vc c ≤ x := by
  simp [maxVc]

theorem max_le_max_left_iff {a b d : ℤ} : max b a ≤ max b d ↔ a ≤ b ∨ a ≤ d := by omega

theorem max_lt_max_left_iff_of_le {a b d : ℤ} (h : max b a ≤ max b d) :
    max b a < max b d ↔ b < d ∧ a < d := by
  omega

/-- Beside the row that it replaced, an update leaves the maximum of the old rows and the
new one. -/
theorem maxVc_update (rows : ι → Row D) (i : ι) (new : Row D) (c : Fin 4) :
    max (maxVc (Function.update rows i new) c) ((rows i).vc c) =
      max (maxVc rows c) (new.vc c) := by
  refine eq_of_forall_ge_iff fun x => ?_
  simp only [max_le_iff, maxVc_le_iff]
  constructor
  · rintro ⟨h, hi⟩
    refine ⟨fun j => ?_, by simpa using h i⟩
    by_cases hj : j = i
    · exact hj ▸ hi
    · simpa [hj] using h j
  · rintro ⟨h, hnew⟩
    refine ⟨fun j => ?_, h i⟩
    by_cases hj : j = i
    · simpa [hj] using hnew
    · simpa [hj] using h j

end Max

section Numbered

variable {ι D : Type*} [Fintype ι] [Inhabited ι] [DecidableEq ι] [DecidableEq D]

/-- A writer's update: the row, what it supplies, and the counter of the trigger. -/
structure Write (ι D : Type*) where
  row : ι
  supplied : Row D
  cntr : ℤ

/-- An object with the counter of the last update and the vector that it replaced in its
row. The last is a record of the run: no later update reads it. -/
structure Numbered (ι D : Type*) where
  blob : Blob ι D
  cntr : ℤ
  replaced : VersionVector

/-- One update that changes the data of its row, under a counter that has grown. -/
def Numbered.step (s : Numbered ι D) (w : Write ι D) : Option (Numbered ι D) :=
  if (s.blob.rows w.row).data ≠ w.supplied.data ∧ s.cntr < w.cntr then
    (s.blob.update w.cntr w.row w.supplied).map fun b => ⟨b, w.cntr, (s.blob.rows w.row).vc⟩
  else none

/-- A new object: all its rows have the vector and the data that they are inserted with. -/
def inserted (data : D) (vc : VersionVector) (lw cntr : ℤ) : Numbered ι D :=
  ⟨⟨⟨data, vc, lw⟩, fun _ => ⟨data, vc, lw⟩⟩, cntr, vc⟩

/-- What one update does: it numbers its row, and the readable row gets its data and the
maximum of the old rows and the new one. -/
theorem Numbered.step_cases {s s' : Numbered ι D} {w : Write ι D} (h : s.step w = some s') :
    ∃ new, assignCounter w.cntr w.supplied = some new ∧
      s'.blob.rows = Function.update s.blob.rows w.row new ∧
      s'.blob.readable.data = new.data ∧
      (∀ c, s'.blob.readable.vc c = max (maxVc s.blob.rows c) (new.vc c)) ∧
      s'.replaced = (s.blob.rows w.row).vc := by
  unfold Numbered.step at h
  split at h
  · rename_i changes
    simp only [Blob.update, changes.1, if_false, blobstoreNumbering, Option.map_map,
      Option.map_eq_some_iff] at h
    obtain ⟨new, hnew, rfl⟩ := h
    exact ⟨new, hnew, rfl, rfl, fun c => rfl, rfl⟩
  · simp at h

/-- The readable row has the maximum of the rows and of the vector last replaced. -/
def Numbered.Accounted (s : Numbered ι D) : Prop :=
  ∀ c, s.blob.readable.vc c = max (maxVc s.blob.rows c) (s.replaced c)

omit [DecidableEq ι] [DecidableEq D] in
theorem inserted_accounted (data : D) (vc : VersionVector) (lw cntr : ℤ) :
    (inserted data vc lw cntr : Numbered ι D).Accounted := by
  intro c
  simp [inserted, maxVc]

theorem Numbered.step_accounted {s s' : Numbered ι D} {w : Write ι D} (h : s.step w = some s') :
    s'.Accounted := by
  obtain ⟨new, -, hrows, -, hvc, hreplaced⟩ := Numbered.step_cases h
  intro c
  rw [hvc, hrows, hreplaced, maxVc_update]

/-- The update leaves no component of the vector replaced before it uncovered, and one
that changes the readable data has a component above all that went before. -/
def Numbered.Covers (s : Numbered ι D) (w : Write ι D) : Prop :=
  ∀ new, assignCounter w.cntr w.supplied = some new →
    (∀ c, s.replaced c ≤ maxVc s.blob.rows c ∨ s.replaced c ≤ new.vc c) ∧
    (new.data ≠ s.blob.readable.data →
      ∃ c, maxVc s.blob.rows c < new.vc c ∧ s.replaced c < new.vc c)

/-- The readable vector does not fall, and it tells the data of the two states apart. -/
def Numbered.Follows (s s' : Numbered ι D) : Prop :=
  s.blob.readable.vc ≤ s'.blob.readable.vc ∧
    (s.blob.readable.vc = s'.blob.readable.vc → s.blob.readable.data = s'.blob.readable.data)

omit [Fintype ι] [Inhabited ι] [DecidableEq ι] [DecidableEq D] in
theorem Numbered.Follows.trans {s t u : Numbered ι D} (h : s.Follows t) (h' : t.Follows u) :
    s.Follows u := by
  refine ⟨h.1.trans h'.1, fun heq => ?_⟩
  have left : s.blob.readable.vc = t.blob.readable.vc := le_antisymm h.1 (heq ▸ h'.1)
  exact (h.2 left).trans (h'.2 (left.symm.trans heq))

/-- One update follows the state before it exactly when it covers what was replaced. -/
theorem Numbered.step_follows_iff {s s' : Numbered ι D} {w : Write ι D}
    (accounted : s.Accounted) (h : s.step w = some s') : s.Follows s' ↔ s.Covers w := by
  obtain ⟨new, hnew, -, hdata, hvc, -⟩ := Numbered.step_cases h
  have grows : s.blob.readable.vc ≤ s'.blob.readable.vc ↔
      ∀ c, s.replaced c ≤ maxVc s.blob.rows c ∨ s.replaced c ≤ new.vc c := by
    refine forall_congr' fun c => ?_
    rw [accounted c, hvc c]
    exact max_le_max_left_iff
  have differs : s.blob.readable.vc ≤ s'.blob.readable.vc →
      (s.blob.readable.vc ≠ s'.blob.readable.vc ↔
        ∃ c, maxVc s.blob.rows c < new.vc c ∧ s.replaced c < new.vc c) := by
    intro hle
    rw [← lt_iff_le_and_ne.trans (and_iff_right hle), Pi.lt_def, and_iff_right hle]
    refine exists_congr fun c => ?_
    have hc := hle c
    rw [accounted c, hvc c] at hc ⊢
    exact max_lt_max_left_iff_of_le hc
  have covers : s.Covers w ↔
      (∀ c, s.replaced c ≤ maxVc s.blob.rows c ∨ s.replaced c ≤ new.vc c) ∧
      (new.data ≠ s.blob.readable.data →
        ∃ c, maxVc s.blob.rows c < new.vc c ∧ s.replaced c < new.vc c) := by
    unfold Numbered.Covers
    constructor
    · exact fun h => h new hnew
    · intro h new' hnew'
      rw [hnew] at hnew'
      exact Option.some.inj hnew' ▸ h
  rw [covers, Numbered.Follows, ← grows, hdata]
  refine and_congr_right fun hle => ?_
  rw [← differs hle, not_imp_not.symm]
  exact ⟨fun h hne => h fun heq => hne heq.symm, fun h hne => h fun heq => hne heq.symm⟩

/-- Over every run, each state follows each earlier one, and an update leaves the
readable vector at or above that of the row it wrote. -/
def KeepsHistory (s : Numbered ι D) (ws : List (Write ι D)) : Prop :=
  (∀ pre mid post t u, ws = pre ++ mid ++ post → run Numbered.step s pre = some t →
    run Numbered.step t mid = some u → t.Follows u) ∧
  ∀ t w t', Takes Numbered.step s ws t w t' →
    (t'.blob.rows w.row).vc ≤ t'.blob.readable.vc

/-- Where each update follows the state before it, so does each later state. -/
theorem run_follows {s t : Numbered ι D} {ws : List (Write ι D)}
    (h : run Numbered.step s ws = some t)
    (each : ∀ u w u', Takes Numbered.step s ws u w u' → u.Follows u') : s.Follows t := by
  refine visits_induction (fun u => s.Follows u) ⟨le_rfl, fun _ => rfl⟩ ?_ (visits_end h)
  intro u w u' htakes hu
  exact hu.trans (each u w u' htakes)

/-- For every sequence of updates of a new object that change the data of their rows,
under a growing counter. -/
theorem keepsHistory_iff (data : D) (vc : VersionVector) (lw cntr : ℤ) (ws : List (Write ι D)) :
    KeepsHistory (inserted data vc lw cntr) ws ↔
      ∀ t w t', Takes Numbered.step (inserted data vc lw cntr) ws t w t' → t.Covers w := by
  have accounted : ∀ t, Visits Numbered.step (inserted data vc lw cntr) ws t → t.Accounted :=
    fun t => visits_invariant Numbered.Accounted (inserted_accounted data vc lw cntr)
      fun _ _ _ h _ => Numbered.step_accounted h
  have exact_step : ∀ t w t', Takes Numbered.step (inserted data vc lw cntr) ws t w t' →
      (t.Follows t' ↔ t.Covers w) := by
    intro t w t' htakes
    have before := accounted t (takes_before htakes)
    obtain ⟨-, -, -, -, hstep⟩ := htakes
    exact Numbered.step_follows_iff before hstep
  constructor
  · rintro ⟨follows, -⟩ t w t' htakes
    refine (exact_step t w t' htakes).mp ?_
    obtain ⟨pre, post, hws, hpre, hstep⟩ := htakes
    exact follows pre [w] post t t' (by simp [hws]) hpre (by simp [run_cons, hstep])
  · intro covers
    refine ⟨fun pre mid post t u hws hpre hmid => run_follows hmid fun v w v' htakes => ?_, ?_⟩
    · have inRun : Takes Numbered.step (inserted data vc lw cntr) ws v w v' := by
        obtain ⟨pre', post', rfl, hpre', hstep⟩ := htakes
        exact ⟨pre ++ pre', post' ++ post, by simp [hws], run_append_some.mpr ⟨t, hpre, hpre'⟩, hstep⟩
      exact (exact_step v w v' inRun).mpr (covers v w v' inRun)
    · rintro t w t' ⟨-, -, -, -, hstep⟩
      obtain ⟨new, -, hrows, -, hvc, -⟩ := Numbered.step_cases hstep
      intro c
      simp [hrows, hvc]

end Numbered

section Lowered

/-- Row 1 of a new object, written three times by the first writer. The first write
carries 100 in its second component, the other two carry 0 there. -/
def loweringWrites : List (Write (Fin 2) ℕ) :=
  [⟨0, ⟨1, ![0, 100, 0, 0], 1⟩, 1⟩, ⟨0, ⟨2, ![0, 0, 0, 0], 1⟩, 2⟩,
    ⟨0, ⟨3, ![0, 0, 0, 0], 1⟩, 3⟩]

/-- The third write takes the readable vector from `(2, 100, 0, 0)` to `(3, 0, 0, 0)`. -/
theorem loweringWrites_lose : ¬ KeepsHistory (inserted 0 ![0, 0, 0, 0] 0 0) loweringWrites := by
  rintro ⟨follows, -⟩
  have before : (run Numbered.step (inserted 0 ![0, 0, 0, 0] 0 0)
      (loweringWrites.take 2)).map (fun t => t.blob.readable.vc 1) = some 100 := by decide +kernel
  have after : (run Numbered.step (inserted 0 ![0, 0, 0, 0] 0 0)
      (loweringWrites.take 2 ++ loweringWrites.drop 2)).map (fun t => t.blob.readable.vc 1) =
        some 0 := by decide +kernel
  obtain ⟨t, ht, vcBefore⟩ := Option.map_eq_some_iff.mp before
  obtain ⟨u, hu, vcAfter⟩ := Option.map_eq_some_iff.mp after
  obtain ⟨t', ht', hmid⟩ := run_append_some.mp hu
  obtain rfl : t = t' := Option.some.inj (ht.symm.trans ht')
  have falls := (follows (loweringWrites.take 2) (loweringWrites.drop 2) [] t u rfl ht hmid).1 1
  rw [vcBefore, vcAfter] at falls
  exact absurd falls (by decide)

end Lowered

end MixT.Pgsql
