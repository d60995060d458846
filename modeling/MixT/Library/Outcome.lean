/-! # Results that may be errors -/

namespace MixT.Library

universe u v

variable {ε : Type u} {α β : Type v} {x : Except ε α} {f : α → Except ε β}

theorem except_bind_ok {b : β} (h : (x >>= f) = .ok b) : ∃ a, x = .ok a ∧ f a = .ok b := by
  cases x with
  | error e => simp [bind, Except.bind] at h
  | ok a => exact ⟨a, rfl, h⟩

theorem except_bind_error {e : ε} (h : (x >>= f) = .error e) :
    x = .error e ∨ ∃ a, x = .ok a ∧ f a = .error e := by
  cases x with
  | error e' => exact Or.inl (by simpa [bind, Except.bind] using h)
  | ok a => exact Or.inr ⟨a, rfl, h⟩

/-- A sequence succeeds when its parts do. -/
theorem exists_bind_ok {P : β → Prop} :
    (∃ b, (x >>= f) = .ok b ∧ P b) ↔ ∃ a, x = .ok a ∧ ∃ b, f a = .ok b ∧ P b := by
  constructor
  · rintro ⟨b, h, hb⟩
    obtain ⟨a, ha, hf⟩ := except_bind_ok h
    exact ⟨a, ha, b, hf, hb⟩
  · rintro ⟨a, rfl, b, hf, hb⟩
    exact ⟨b, hf, hb⟩

theorem exists_pure_ok {a : α} {P : α → Prop} :
    (∃ b, (pure a : Except ε α) = .ok b ∧ P b) ↔ P a := by
  constructor
  · rintro ⟨b, h, hb⟩
    cases h
    exact hb
  · exact fun h => ⟨a, rfl, h⟩

variable {γ : Type v} {δ : Type v} {P X : α → Prop} {Q Y : γ → Prop} {R Z : δ → Prop}

/-- What is asked of each of two results is asked of both. -/
theorem exists_pair :
    (∃ a, P a ∧ ∃ b, Q b ∧ X a ∧ Y b) ↔ (∃ a, P a ∧ X a) ∧ ∃ b, Q b ∧ Y b := by
  constructor
  · rintro ⟨a, ha, b, hb, hX, hY⟩
    exact ⟨⟨a, ha, hX⟩, b, hb, hY⟩
  · rintro ⟨⟨a, ha, hX⟩, b, hb, hY⟩
    exact ⟨a, ha, b, hb, hX, hY⟩

theorem exists_triple :
    (∃ a, P a ∧ ∃ b, Q b ∧ ∃ c, R c ∧ X a ∧ Y b ∧ Z c) ↔
      (∃ a, P a ∧ X a) ∧ (∃ b, Q b ∧ Y b) ∧ ∃ c, R c ∧ Z c := by
  constructor
  · rintro ⟨a, ha, b, hb, c, hc, hX, hY, hZ⟩
    exact ⟨⟨a, ha, hX⟩, ⟨b, hb, hY⟩, c, hc, hZ⟩
  · rintro ⟨⟨a, ha, hX⟩, ⟨b, hb, hY⟩, c, hc, hZ⟩
    exact ⟨a, ha, b, hb, c, hc, hX, hY, hZ⟩

end MixT.Library
