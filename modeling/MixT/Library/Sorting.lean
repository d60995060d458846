import Mathlib.Data.List.Sort

/-! # Comparison sorts

What a sort by comparisons does with a comparator that need not be an order: it
permutes its input, and wherever the comparator separates a class of elements
from the rest, that class comes first. -/

namespace MixT.Library

universe u

structure ComparisonSort where
  sort : ∀ {α : Type u}, (α → α → Bool) → List α → List α
  perm : ∀ {α : Type u} (lte : α → α → Bool) (l : List α), (sort lte l).Perm l
  separates : ∀ {α : Type u} (lte : α → α → Bool) (l : List α) (low : α → Prop),
    (∀ a ∈ l, ∀ b ∈ l, low a → ¬ low b → lte a b = true ∧ lte b a = false) →
    (sort lte l).Pairwise fun a b => low b → low a

namespace ComparisonSort

variable {α : Type u}

theorem mem_sort (sorting : ComparisonSort) {lte : α → α → Bool} {l : List α} {a : α} :
    a ∈ sorting.sort lte l ↔ a ∈ l :=
  (sorting.perm lte l).mem_iff

theorem length_sort (sorting : ComparisonSort) (lte : α → α → Bool) (l : List α) :
    (sorting.sort lte l).length = l.length :=
  (sorting.perm lte l).length_eq

/-- Where the comparator is a total preorder, the result is ordered by it. -/
theorem sorted (sorting : ComparisonSort) {lte : α → α → Bool} {l : List α}
    (total : ∀ a ∈ l, ∀ b ∈ l, lte a b = true ∨ lte b a = true)
    (transitive : ∀ a ∈ l, ∀ b ∈ l, ∀ c ∈ l,
      lte a b = true → lte b c = true → lte a c = true) :
    (sorting.sort lte l).Pairwise fun a b => lte a b = true := by
  apply List.pairwise_iff_forall_sublist.mpr
  intro a b hab
  have ha : a ∈ l := sorting.mem_sort.mp (hab.subset (by simp))
  have hb : b ∈ l := sorting.mem_sort.mp (hab.subset (by simp))
  -- the class of elements below `b` contains `b`, so it contains what stands before `b`
  have cut := sorting.separates lte l (fun x => lte x b = true) <| by
    intro x hx y hy hxb hyb
    have hby : lte b y = true := (total b hb y hy).resolve_right hyb
    refine ⟨transitive x hx b hb y hy hxb hby, ?_⟩
    by_contra h
    exact hyb (transitive y hy x hx b hb (by simpa using h) hxb)
  have before := List.pairwise_iff_forall_sublist.mp cut hab
  exact before (by simpa using total b hb b hb)

theorem orderedInsert_separates {lte : α → α → Bool} {low : α → Prop} {a : α} {l : List α}
    (separated : ∀ x ∈ a :: l, ∀ y ∈ a :: l, low x → ¬ low y → lte x y = true ∧ lte y x = false)
    (h : l.Pairwise fun x y => low y → low x) :
    (l.orderedInsert (fun x y => lte x y = true) a).Pairwise fun x y => low y → low x := by
  induction l with
  | nil => simp
  | cons b l ih =>
      obtain ⟨hb, hl⟩ := List.pairwise_cons.mp h
      rw [List.orderedInsert_cons]
      split
      · rename_i hab
        refine List.pairwise_cons.mpr ⟨?_, h⟩
        intro c hc lowc
        by_contra nota
        have lowb : low b := by
          obtain rfl | hc := List.mem_cons.mp hc
          · exact lowc
          · exact hb c hc lowc
        have := (separated b (by simp) a (by simp) lowb nota).2
        simp [hab] at this
      · rename_i hab
        refine List.pairwise_cons.mpr ⟨?_, ih ?_ hl⟩
        · intro c hc lowc
          obtain rfl | hc := (List.mem_orderedInsert _).mp hc
          · by_contra notb
            exact hab (separated c (by simp) b (by simp) lowc notb).1
          · exact hb c hc lowc
        · intro x hx y hy
          apply separated
          · obtain rfl | hx := List.mem_cons.mp hx <;> simp_all
          · obtain rfl | hy := List.mem_cons.mp hy <;> simp_all

/-- Insertion sort. -/
def insertion : ComparisonSort.{u} where
  sort lte l := l.insertionSort fun a b => lte a b = true
  perm lte l := List.perm_insertionSort _ l
  separates lte l low separated := by
    induction l with
    | nil => simp
    | cons a l ih =>
        have kept := ih fun x hx y hy => separated x (by simp [hx]) y (by simp [hy])
        refine orderedInsert_separates ?_ kept
        intro x hx y hy
        have subset : ∀ z, z ∈ a :: l.insertionSort (fun a b => lte a b = true) → z ∈ a :: l := by
          simp
        exact separated x (subset x hx) y (subset y hy)

end ComparisonSort

end MixT.Library
