import Mathlib.Init

/-! # Programs with a state that may fail

A failure keeps the state reached so far. Invariants, simulations and preconditions go
through the sequencing of such programs. -/

namespace MixT.Library

/-- A program over the state `S` with failures in `E`. -/
abbrev Eff (E S α : Type) := ExceptT E (StateM S) α

namespace Eff

variable {E E' S T α β γ δ : Type}

theorem run_bind (a : Eff E S α) (f : α → Eff E S β) (s : S) :
    (a >>= f).run s =
      match a.run s with
      | (.ok v, s') => (f v).run s'
      | (.error e, s') => (.error e, s') := by
  have unfolded : (a >>= f).run s =
      (match (a.run s).1 with
        | .ok v => (f v).run (a.run s).2
        | .error e => (.error e, (a.run s).2)) := by
    rw [ExceptT.run_bind]
    change (match (a.run s).1 with
        | .ok v => (f v).run
        | .error e => pure (.error e)) (a.run s).2 = _
    cases (a.run s).1 <;> rfl
  rw [unfolded]
  rcases a.run s with ⟨_ | _, _⟩ <;> rfl

@[simp] theorem run_pure (v : α) (s : S) : (pure v : Eff E S α).run s = (.ok v, s) := rfl

@[simp] theorem run_throw (e : E) (s : S) : (throw e : Eff E S α).run s = (.error e, s) := rfl

/-- A result that is known beforehand. -/
def ofExcept (r : Except E α) : Eff E S α := ExceptT.mk (pure r)

@[simp] theorem run_ofExcept (r : Except E α) (s : S) : (ofExcept r).run s = (r, s) := rfl

section Invariant

/-- The program keeps `I`, also where it fails, and fails with errors of `Q` only. -/
def Keeps (I : S → Prop) (Q : E → Prop) (a : Eff E S α) : Prop :=
  ∀ s, I s → I (a.run s).2 ∧ ∀ e, (a.run s).1 = .error e → Q e

variable {I : S → Prop} {Q : E → Prop}

theorem keeps_pure (v : α) : Keeps I Q (pure v : Eff E S α) := by
  rintro s h
  exact ⟨h, by simp⟩

theorem keeps_throw {e : E} (he : Q e) : Keeps I Q (throw e : Eff E S α) := by
  rintro s h
  refine ⟨h, fun e' he' => ?_⟩
  obtain rfl : e = e' := by simpa using he'
  exact he

theorem keeps_ofExcept {r : Except E α} (hr : ∀ e, r = .error e → Q e) :
    Keeps I Q (ofExcept r : Eff E S α) := fun _ h => ⟨h, hr⟩

theorem Keeps.bind {a : Eff E S α} {f : α → Eff E S β} (ha : Keeps I Q a)
    (hf : ∀ v, Keeps I Q (f v)) : Keeps I Q (a >>= f) := by
  intro s h
  obtain ⟨after, errors⟩ := ha s h
  rw [run_bind]
  rcases hrun : a.run s with ⟨e | v, s'⟩ <;> rw [hrun] at after errors
  · exact ⟨after, fun e' he' => errors e' (by simpa using he')⟩
  · exact hf v s' after

end Invariant

section Simulation

/-- Results alike: values in the relation, or one error. -/
inductive Alike (Q : α → β → Prop) : Except E α → Except E β → Prop
  | ok {v : α} {w : β} : Q v w → Alike Q (.ok v) (.ok w)
  | error (e : E) : Alike Q (.error e) (.error e)

theorem Alike.refl {r : Except E α} : Alike Eq r r := by
  cases r with
  | error e => exact .error e
  | ok v => exact .ok rfl

theorem Alike.eq {r r' : Except E α} (h : Alike Eq r r') : r = r' := by
  cases h with
  | ok h => rw [h]
  | error e => rfl

/-- From related states the programs end in related states, with results alike. -/
def Sim (R : S → T → Prop) (Q : α → β → Prop) (a : Eff E S α) (b : Eff E T β) : Prop :=
  ∀ s t, R s t → Alike Q (a.run s).1 (b.run t).1 ∧ R (a.run s).2 (b.run t).2

variable {R : S → T → Prop} {Q : α → β → Prop}

theorem sim_pure {v : α} {w : β} (h : Q v w) : Sim R Q (pure v : Eff E S α) (pure w) :=
  fun _ _ hR => ⟨.ok h, hR⟩

theorem sim_throw (e : E) : Sim R Q (throw e : Eff E S α) (throw e) :=
  fun _ _ hR => ⟨.error e, hR⟩

theorem sim_refl (a : Eff E S α) : Sim Eq Eq a a := by
  rintro s t rfl
  exact ⟨.refl, rfl⟩

theorem Sim.bind {Q' : γ → δ → Prop} {a : Eff E S α} {b : Eff E T β} {f : α → Eff E S γ}
    {g : β → Eff E T δ} (h : Sim R Q a b) (hf : ∀ v w, Q v w → Sim R Q' (f v) (g w)) :
    Sim R Q' (a >>= f) (b >>= g) := by
  intro s t hR
  obtain ⟨results, states⟩ := h s t hR
  rw [run_bind, run_bind]
  rcases hrun : a.run s with ⟨r, s'⟩
  rcases hrun' : b.run t with ⟨r', t'⟩
  rw [hrun, hrun'] at results states
  cases results with
  | ok hQ => exact hf _ _ hQ s' t' states
  | error e => exact ⟨.error e, states⟩

/-- Simulations of the same results compose where the relation of states does. -/
theorem Sim.trans {R : S → S → Prop} {a b c : Eff E S α}
    (right : ∀ s t, R s t → R t t) (trans : ∀ s t u, R s t → R t u → R s u)
    (h : Sim R Eq a b) (h' : Sim R Eq b c) : Sim R Eq a c := by
  intro s t hR
  obtain ⟨results, states⟩ := h s t hR
  obtain ⟨results', states'⟩ := h' t t (right s t hR)
  exact ⟨results.eq ▸ results', trans _ _ _ states states'⟩

end Simulation

section Preconditions

/-- The weakest liberal precondition: where the program ends with a value, `Q` holds of it. -/
def wlp (a : Eff E S α) (Q : α → S → Prop) (s : S) : Prop :=
  ∀ v s', a.run s = (.ok v, s') → Q v s'

variable {a : Eff E S α} {f : α → Eff E S β} {s : S}

@[simp] theorem wlp_pure {v : α} {Q : α → S → Prop} : wlp (pure v : Eff E S α) Q s ↔ Q v s := by
  constructor
  · intro h
    exact h v s rfl
  · rintro h w s' hrun
    cases hrun
    exact h

@[simp] theorem wlp_throw {e : E} {Q : α → S → Prop} : wlp (throw e : Eff E S α) Q s := by
  rintro v s' hrun
  cases hrun

theorem wlp_bind {Q : β → S → Prop} : wlp (a >>= f) Q s ↔ wlp a (fun v => wlp (f v) Q) s := by
  constructor
  · intro h v s' hrun w s'' hrun'
    apply h w s''
    rw [run_bind, hrun]
    exact hrun'
  · intro h w s'' hrun
    rw [run_bind] at hrun
    rcases hfirst : a.run s with ⟨e | v, s'⟩ <;> rw [hfirst] at hrun
    · cases hrun
    · exact h v s' hfirst w s'' hrun

theorem wlp.mono {Q Q' : α → S → Prop} (h : wlp a Q s) (imp : ∀ v s', Q v s' → Q' v s') :
    wlp a Q' s := fun v s' hrun => imp v s' (h v s' hrun)

theorem wlp.and {Q Q' : α → S → Prop} (h : wlp a Q s) (h' : wlp a Q' s) :
    wlp a (fun v s' => Q v s' ∧ Q' v s') s := fun v s' hrun => ⟨h v s' hrun, h' v s' hrun⟩

theorem Keeps.wlp {I : S → Prop} {P : E → Prop} (h : Keeps I P a) (hs : I s) :
    wlp a (fun _ s' => I s') s := by
  intro v s' hrun
  have after := (h s hs).1
  rw [hrun] at after
  exact after

/-- The weakest precondition with a second condition, for where the program fails. -/
def wp (a : Eff E S α) (Q : α → S → Prop) (P : E → S → Prop) (s : S) : Prop :=
  match a.run s with
  | (.ok v, s') => Q v s'
  | (.error e, s') => P e s'

@[simp] theorem wp_pure {v : α} {Q : α → S → Prop} {P : E → S → Prop} :
    wp (pure v : Eff E S α) Q P s ↔ Q v s := Iff.rfl

@[simp] theorem wp_throw {e : E} {Q : α → S → Prop} {P : E → S → Prop} :
    wp (throw e : Eff E S α) Q P s ↔ P e s := Iff.rfl

theorem wp_bind {Q : β → S → Prop} {P : E → S → Prop} :
    wp (a >>= f) Q P s ↔ wp a (fun v => wp (f v) Q P) P s := by
  unfold wp
  rw [run_bind]
  rcases a.run s with ⟨e | v, s'⟩ <;> rfl

theorem wp.mono {Q Q' : α → S → Prop} {P P' : E → S → Prop} (h : wp a Q P s)
    (imp : ∀ v s', Q v s' → Q' v s') (failed : ∀ e s', P e s' → P' e s') : wp a Q' P' s := by
  unfold wp at h ⊢
  split at h
  · rename_i v s' _
    exact imp v s' h
  · rename_i e s' _
    exact failed e s' h

end Preconditions

section Beside

variable {r : Except E α}

/-- The program over a state with more in it, which it leaves alone. -/
def beside (a : Eff E S α) : Eff E (S × T) α :=
  ExceptT.mk fun s => ((a.run s.1).1, (a.run s.1).2, s.2)

@[simp] theorem run_beside (a : Eff E S α) (s : S) (t : T) :
    (beside a : Eff E (S × T) α).run (s, t) = ((a.run s).1, (a.run s).2, t) := rfl

theorem beside_pure (v : α) : (beside (pure v : Eff E S α) : Eff E (S × T) α) = pure v := rfl

theorem beside_ofExcept : (beside (ofExcept r : Eff E S α) : Eff E (S × T) α) = ofExcept r := rfl

theorem beside_bind (a : Eff E S α) (f : α → Eff E S β) :
    (beside (a >>= f) : Eff E (S × T) β) = beside a >>= fun v => beside (f v) := by
  refine ExceptT.ext (funext fun ⟨s, t⟩ => ?_)
  rw [run_bind, run_beside, run_beside, run_bind]
  rcases a.run s with ⟨e | v, s'⟩ <;> rfl

end Beside

end Eff

end MixT.Library
