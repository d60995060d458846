import Mathlib.Data.Sum.Order
import Mathlib.Order.WithBot
import MixT.Inference.Soundness

/-! # The order in which constraints are solved

The comparator of constraints falls through from one comparison to the next without asking
whether the first was a tie. It is an order on the sets of constraints where it makes no
difference. -/

namespace MixT.Inference

open Library

section Order

variable {L : Type*} [LinearOrder L]

/-- The labels that a constraint runs between. -/
def Constraint.ends (c : Constraint L) : Label L × Label L := (c.high, c.low)

/-- The comparator orders the constraints of a set totally, up to their reasons, with the
concrete sources first. However they are listed, they sort into one list. -/
structure OrdersWell (S : Set (Constraint L)) : Prop where
  total : ∀ c ∈ S, ∀ d ∈ S, c.lte d = true ∨ d.lte c = true
  transitive : ∀ c ∈ S, ∀ d ∈ S, ∀ e ∈ S, c.lte d = true → d.lte e = true → c.lte e = true
  antisymmetric : ∀ c ∈ S, ∀ d ∈ S, c.lte d = true → d.lte c = true → c.ends = d.ends
  concreteFirst : ∀ c ∈ S, ∀ d ∈ S, c.high.isTemp = false → d.high.isTemp = true →
    c.lte d = true ∧ d.lte c = false
  oneList : ∀ l l' : List (Constraint L), (∀ c ∈ l, c ∈ S) → l.Perm l' →
    l.Pairwise (fun c d => c.lte d = true) → l'.Pairwise (fun c d => c.lte d = true) →
    l.map Constraint.ends = l'.map Constraint.ends

/-- The first label is before the second, and no component of an index goes back. -/
def Before : Label L → Label L → Prop
  | .concrete a, .concrete b => a < b
  | .concrete _, .temp _ _ => True
  | .temp l1 l2, .temp r1 r2 => l1 ≤ r1 ∧ l2 ≤ r2
  | _, _ => False

/-- Nothing runs between temporary labels, no two constraints share a destination if their
sources are temporary, nor a source if it is concrete, and higher concrete sources have
later destinations. -/
structure Separated (S : Set (Constraint L)) : Prop where
  concreteEnd : ∀ c ∈ S, c.high.isTemp = true → c.low.isTemp = false
  ownTarget : ∀ c ∈ S, ∀ d ∈ S, c.high.isTemp = true → d.high.isTemp = true → c.low = d.low →
    c.high = d.high
  ownSource : ∀ c ∈ S, ∀ d ∈ S, c.high.isTemp = false → c.high = d.high → c.low = d.low
  aligned : ∀ c ∈ S, ∀ d ∈ S, ∀ a b, c.high = .concrete a → d.high = .concrete b → a < b →
    Before c.low d.low

theorem lessThan_eq_false {a b : Label L} (ha : a.isMinOf = false) (hb : b.isMinOf = false) :
    lessThan b a = false ↔ Before a b := by
  cases a with
  | minOf => simp [Label.isMinOf] at ha
  | concrete x =>
      cases b with
      | minOf => simp [Label.isMinOf] at hb
      | concrete y =>
          rw [lessThan, decide_eq_false_iff_not]
          exact not_le
      | temp s d => simp [lessThan, Before]
  | temp s d =>
      cases b with
      | minOf => simp [Label.isMinOf] at hb
      | concrete y => simp [lessThan, Before]
      | temp s' d' =>
          by_cases h : s' < s
          · simp only [lessThan, h, if_true, Before, Bool.true_eq_false, false_iff]
            omega
          · simp only [lessThan, h, if_false, Before, decide_eq_false_iff_not]
            omega

theorem lessThan_concrete (a b : L) :
    lessThan (.concrete a) (.concrete b) = true ↔ a ≤ b := by
  rw [lessThan, decide_eq_true_iff, FlowsTo]

section Comparison

variable {c d : Constraint L}

theorem lte_concrete {a b : L} (hc : c.high = .concrete a) (hd : d.high = .concrete b) :
    c.lte d = true ↔ a ≤ b ∨ lessThan c.low d.low = true := by
  simp only [Constraint.lte, hc, hd, Label.isTemp, Bool.false_eq_true, if_false]
  rw [← lessThan_concrete]
  by_cases h : lessThan (.concrete a) (.concrete b) = true
  · simp [h]
  · simp [h]

theorem lte_temp (hc : c.high.isTemp = true) (hd : d.high.isTemp = true) :
    c.lte d = lessThan c.low d.low := by
  simp [Constraint.lte, hc, hd]

theorem lte_concrete_temp (hc : c.high.isTemp = false) (hd : d.high.isTemp = true) :
    c.lte d = true ∧ d.lte c = false := by
  simp [Constraint.lte, hc, hd]

end Comparison

/-- Where a constraint stands: with the concrete sources, by its source, or behind them, by
its destination. -/
def Constraint.place (c : Constraint L) : L ⊕ₗ WithTop L :=
  match c.high, c.low with
  | .concrete a, _ => toLex (.inl a)
  | _, .concrete b => toLex (.inr b)
  | _, _ => toLex (.inr ⊤)

variable {S : Set (Constraint L)}

omit [LinearOrder L] in
theorem Label.concrete_of {l : Label L} (atomic : l.isMinOf = false) (h : l.isTemp = false) :
    ∃ a, l = .concrete a := by
  cases l with
  | concrete a => exact ⟨a, rfl⟩
  | temp s d => cases h
  | minOf a b => cases atomic

section Separated

variable (atomic : ∀ c ∈ S, Atomic c) (separated : Separated S) {c d : Constraint L}

include atomic separated

/-- A constraint of a separated set has one of two forms. -/
theorem Separated.place_eq (hc : c ∈ S) :
    (∃ a, c.high = .concrete a ∧ c.place = toLex (.inl a)) ∨
      ∃ b, c.high.isTemp = true ∧ c.low = .concrete b ∧ c.place = toLex (.inr (b : WithTop L)) := by
  obtain ⟨atomicHigh, atomicLow⟩ := atomic c hc
  cases temp : c.high.isTemp with
  | false =>
      obtain ⟨a, ha⟩ := Label.concrete_of atomicHigh temp
      exact Or.inl ⟨a, ha, by simp [Constraint.place, ha]⟩
  | true =>
      obtain ⟨b, hb⟩ := Label.concrete_of atomicLow (separated.concreteEnd c hc temp)
      obtain ⟨s, d, hs⟩ := Label.isTemp_iff.mp temp
      exact Or.inr ⟨b, rfl, hb, by simp [Constraint.place, hs, hb]⟩

/-- The comparator compares the places. -/
theorem Separated.lte_iff (hc : c ∈ S) (hd : d ∈ S) : c.lte d = true ↔ c.place ≤ d.place := by
  obtain ⟨a, ha, placeC⟩ | ⟨a, tempC, ha, placeC⟩ := separated.place_eq atomic hc
  · obtain ⟨b, hb, placeD⟩ | ⟨b, tempD, hb, placeD⟩ := separated.place_eq atomic hd
    · rw [lte_concrete ha hb, placeC, placeD, Sum.Lex.inl_le_inl_iff]
      refine ⟨fun h => h.elim id fun less => ?_, Or.inl⟩
      by_contra above
      have aligned := separated.aligned d hd c hc b a hb ha (not_le.mp above)
      rw [(lessThan_eq_false (atomic d hd).2 (atomic c hc).2).mpr aligned] at less
      cases less
    · have first := (lte_concrete_temp (c := c) (d := d) (by simp [ha, Label.isTemp]) tempD).1
      rw [placeC, placeD]
      exact iff_of_true first (Sum.Lex.inl_le_inr a _)
  · obtain ⟨b, hb, placeD⟩ | ⟨b, tempD, hb, placeD⟩ := separated.place_eq atomic hd
    · have last := (lte_concrete_temp (c := d) (d := c) (by simp [hb, Label.isTemp]) tempC).2
      rw [placeC, placeD, last]
      exact iff_of_false (by decide) Sum.Lex.not_inr_le_inl
    · rw [lte_temp tempC tempD, ha, hb, lessThan_concrete, placeC, placeD, Sum.Lex.inr_le_inr_iff,
        WithTop.coe_le_coe]

/-- A place determines the labels. -/
theorem Separated.ends_eq (hc : c ∈ S) (hd : d ∈ S) (same : c.place = d.place) :
    c.ends = d.ends := by
  obtain ⟨a, ha, placeC⟩ | ⟨a, tempC, ha, placeC⟩ := separated.place_eq atomic hc
  · obtain ⟨b, hb, placeD⟩ | ⟨b, tempD, hb, placeD⟩ := separated.place_eq atomic hd
    · rw [placeC, placeD] at same
      have high : c.high = d.high := by
        rw [ha, hb, Sum.inl.inj (toLex.injective same)]
      have low := separated.ownSource c hc d hd (by simp [ha, Label.isTemp]) high
      rw [Constraint.ends, Constraint.ends, high, low]
    · rw [placeC, placeD] at same
      cases toLex.injective same
  · obtain ⟨b, hb, placeD⟩ | ⟨b, tempD, hb, placeD⟩ := separated.place_eq atomic hd
    · rw [placeC, placeD] at same
      cases toLex.injective same
    · rw [placeC, placeD] at same
      have low : c.low = d.low := by
        rw [ha, hb, WithTop.coe_injective (Sum.inr.inj (toLex.injective same))]
      have high := separated.ownTarget c hc d hd tempC tempD low
      rw [Constraint.ends, Constraint.ends, high, low]

theorem Separated.ordersWell : OrdersWell S := by
  have lte := fun c hc d hd => separated.lte_iff atomic (c := c) (d := d) hc hd
  have antisymmetric : ∀ c ∈ S, ∀ d ∈ S, c.lte d = true → d.lte c = true → c.ends = d.ends := by
    intro c hc d hd hcd hdc
    rw [lte c hc d hd] at hcd
    rw [lte d hd c hc] at hdc
    exact separated.ends_eq atomic hc hd (le_antisymm hcd hdc)
  refine ⟨fun c hc d hd => ?_, fun c hc d hd e he hcd hde => ?_, antisymmetric,
    fun c _ d _ => lte_concrete_temp, fun l l' inside perm sorted sorted' => ?_⟩
  · rw [lte c hc d hd, lte d hd c hc]
    exact le_total _ _
  · rw [lte c hc d hd] at hcd
    rw [lte d hd e he] at hde
    exact (lte c hc e he).mpr (hcd.trans hde)
  · -- the comparator does not look at the reasons
    let endsLte : Label L × Label L → Label L × Label L → Prop :=
      fun p q => Constraint.lte ⟨p.1, p.2, .assignment⟩ ⟨q.1, q.2, .assignment⟩ = true
    apply @List.Perm.eq_of_pairwise _ endsLte
    · intro p q hp hq hpq hqp
      obtain ⟨c, hc, rfl⟩ := List.mem_map.mp hp
      obtain ⟨d, hd, rfl⟩ := List.mem_map.mp hq
      exact antisymmetric c (inside c hc) d (inside d (perm.mem_iff.mpr hd)) hpq hqp
    · exact List.pairwise_map.mpr sorted
    · exact List.pairwise_map.mpr sorted'
    · exact perm.map _

end Separated

theorem OrdersWell.separated (atomic : ∀ c ∈ S, Atomic c) (orders : OrdersWell S) :
    Separated S := by
  refine ⟨fun c hc temp => ?_, fun c hc d hd tempC tempD same => ?_,
    fun c hc d hd concrete same => ?_, fun c hc d hd a b ha hb below => ?_⟩
  · by_contra tempLow
    obtain ⟨s, e, low⟩ := Label.isTemp_iff.mp (Bool.eq_true_of_not_eq_false tempLow)
    have reflexive : c.lte c = true := (orders.total c hc c hc).elim id id
    rw [lte_temp temp temp, low] at reflexive
    simp [lessThan] at reflexive
  · have reflexive : lessThan c.low c.low = true := by
      have here := (orders.total c hc c hc).elim id id
      rwa [lte_temp tempC tempC] at here
    have ends := orders.antisymmetric c hc d hd (by rwa [lte_temp tempC tempD, ← same])
      (by rwa [lte_temp tempD tempC, ← same])
    exact congrArg Prod.fst ends
  · obtain ⟨a, ha⟩ := Label.concrete_of (atomic c hc).1 concrete
    have hd' : d.high = .concrete a := same ▸ ha
    have ends := orders.antisymmetric c hc d hd ((lte_concrete ha hd').mpr (Or.inl le_rfl))
      ((lte_concrete hd' ha).mpr (Or.inl le_rfl))
    exact congrArg Prod.snd ends
  · rw [← lessThan_eq_false (atomic c hc).2 (atomic d hd).2]
    by_contra back
    have ends := orders.antisymmetric c hc d hd ((lte_concrete ha hb).mpr (Or.inl below.le))
      ((lte_concrete hb ha).mpr (Or.inr (Bool.eq_true_of_not_eq_false back)))
    have high : c.high = d.high := congrArg Prod.fst ends
    rw [ha, hb, Label.concrete.injEq] at high
    exact below.ne high

/-- For every set of constraints between concrete and temporary labels. The set of all of
them is not ordered. -/
theorem lte_ordersWell_iff (S : Set (Constraint L)) (atomic : ∀ c ∈ S, Atomic c) :
    (OrdersWell S ↔ Separated S) ∧ ¬ OrdersWell {c : Constraint L | Atomic c} := by
  refine ⟨⟨fun orders => orders.separated atomic, fun separated => separated.ordersWell atomic⟩,
    fun orders => ?_⟩
  have concreteEnd := (orders.separated fun c hc => hc).concreteEnd
    ⟨.temp 1 1, .temp 1 1, .assignment⟩ ⟨rfl, rfl⟩ rfl
  cases concreteEnd

end Order

section FourLabels

/-- Two variables with bounds of their own. -/
def ownBounds : Set (Constraint FourLabels) :=
  {⟨.concrete causal, .temp 1 1, .boundExpression⟩, ⟨.concrete strong, .temp 2 2, .boundExpression⟩}

theorem ownBounds_ordersWell : OrdersWell ownBounds := by
  refine (lte_ordersWell_iff ownBounds ?_).1.mpr ⟨?_, ?_, ?_, ?_⟩
  · rintro c (rfl | rfl) <;> exact ⟨rfl, rfl⟩
  · rintro c (rfl | rfl) temp <;> cases temp
  · rintro c (rfl | rfl) d _ temp <;> cases temp
  · rintro c (rfl | rfl) d (rfl | rfl) _ same
    · rfl
    · exact absurd same (by decide)
    · exact absurd same (by decide)
    · rfl
  · rintro c (rfl | rfl) d (rfl | rfl) a b ha hb below <;> cases ha <;> cases hb
    · exact absurd below (by decide)
    · exact ⟨by decide, by decide⟩
    · exact absurd below (by decide)
    · exact absurd below (by decide)

/-- Two variables with one bound. -/
def sharedBound : Set (Constraint FourLabels) :=
  {⟨.concrete strong, .temp 1 1, .boundExpression⟩, ⟨.concrete strong, .temp 2 2, .boundExpression⟩}

/-- Each of the two comes before the other. -/
theorem sharedBound_unordered :
    ¬ OrdersWell sharedBound ∧ ¬ OrdersWell {c : Constraint FourLabels | Atomic c} := by
  have both : ∀ S : Set (Constraint FourLabels), sharedBound ⊆ S → ¬ OrdersWell S := by
    intro S inside orders
    have ends := orders.antisymmetric ⟨.concrete strong, .temp 1 1, .boundExpression⟩
      (inside (Or.inl rfl)) ⟨.concrete strong, .temp 2 2, .boundExpression⟩
      (inside (Or.inr rfl)) (by decide) (by decide)
    exact absurd ends (by decide)
  refine ⟨both _ fun c hc => hc, both _ ?_⟩
  rintro c (rfl | rfl) <;> exact ⟨rfl, rfl⟩

end FourLabels

end MixT.Inference
