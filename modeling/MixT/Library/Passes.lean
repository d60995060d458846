import Mathlib.Tactic.Choose
import MixT.Library.Effects

/-! # Programs before and after a pass

A pass makes of a program another one, whose runs may end in other states. The two are near if,
from every state, they end alike but for what a relation of states leaves open, unless the first
one is lost: it fails with an error that says nothing. Programs may read one part of their state
and act on the other. -/

namespace MixT.Library.Eff

variable {E E' S T α β γ : Type}

section Near

/-- From each state the programs end alike in related states, unless the first one is lost. -/
def Near (Lost : E → Prop) (R : S → S → Prop) (a b : Eff E S α) : Prop :=
  ∀ s, (∃ e, Lost e ∧ (a.run s).1 = .error e) ∨
    (a.run s).1 = (b.run s).1 ∧ R (a.run s).2 (b.run s).2

variable {Lost : E → Prop} {R R' : S → S → Prop} {a b c : Eff E S α} {f g : α → Eff E S β}

theorem Near.refl (refl : ∀ s, R s s) : Near Lost R a a := fun _ => Or.inr ⟨rfl, refl _⟩

theorem Near.mono (h : Near Lost R a b) (sub : ∀ s t, R s t → R' s t) : Near Lost R' a b :=
  fun s => (h s).imp_right fun ⟨results, states⟩ => ⟨results, sub _ _ states⟩

theorem Near.lose (h : Near (fun _ => False) R a b) : Near Lost R a b := by
  intro s
  obtain ⟨e, lost, -⟩ | near := h s
  · exact lost.elim
  · exact Or.inr near

theorem Near.symm (symm : ∀ s t, R s t → R t s) (h : Near (fun _ => False) R a b) :
    Near (fun _ => False) R b a := by
  intro s
  obtain ⟨e, lost, -⟩ | ⟨results, states⟩ := h s
  · exact lost.elim
  · exact Or.inr ⟨results.symm, symm _ _ states⟩

theorem Near.trans (trans : ∀ s t u, R s t → R t u → R s u) (h : Near Lost R a b)
    (h' : Near Lost R b c) : Near Lost R a c := by
  intro s
  obtain lost | ⟨results, states⟩ := h s
  · exact Or.inl lost
  obtain ⟨e, lost, failed⟩ | ⟨results', states'⟩ := h' s
  · exact Or.inl ⟨e, lost, results.trans failed⟩
  · exact Or.inr ⟨results.trans results', trans _ _ _ states states'⟩

/-- What a related state makes no difference to, then a pass. -/
theorem Near.sim (trans : ∀ s t u, R s t → R t u → R s u) (frame : Sim R Eq a a)
    (h : Near Lost R a b) {s t : S} (related : R s t) :
    (∃ e, Lost e ∧ (a.run s).1 = .error e) ∨
      (a.run s).1 = (b.run t).1 ∧ R (a.run s).2 (b.run t).2 := by
  obtain ⟨results, states⟩ := frame s t related
  obtain ⟨e, lost, failed⟩ | ⟨results', states'⟩ := h t
  · exact Or.inl ⟨e, lost, results.eq.trans failed⟩
  · exact Or.inr ⟨results.eq.trans results', trans _ _ _ states states'⟩

/-- Programs that are near, and what follows them from related states. -/
theorem Near.follow (h : Near Lost R a b)
    (hf : ∀ v s t, R s t → (∃ e, Lost e ∧ ((f v).run s).1 = .error e) ∨
      ((f v).run s).1 = ((g v).run t).1 ∧ R ((f v).run s).2 ((g v).run t).2) :
    Near Lost R (a >>= f) (b >>= g) := by
  intro s
  rw [run_bind, run_bind]
  rcases hrun : a.run s with ⟨r, s'⟩
  rcases hrun' : b.run s with ⟨r', t'⟩
  have near := h s
  rw [hrun, hrun'] at near
  obtain ⟨e, lost, rfl⟩ | ⟨rfl, states⟩ := near
  · exact Or.inl ⟨e, lost, rfl⟩
  · cases r with
    | error e => exact Or.inr ⟨rfl, states⟩
    | ok v => exact hf v s' t' states

theorem Near.bind (trans : ∀ s t u, R s t → R t u → R s u) (h : Near Lost R a b)
    (frame : ∀ v, Sim R Eq (f v) (f v)) (hf : ∀ v, Near Lost R (f v) (g v)) :
    Near Lost R (a >>= f) (b >>= g) :=
  h.follow fun v _ _ related => (hf v).sim trans (frame v) related

/-- The same program first. -/
theorem near_bind_same (refl : ∀ s, R s s) (a : Eff E S α) (hf : ∀ v, Near Lost R (f v) (g v)) :
    Near Lost R (a >>= f) (a >>= g) := by
  intro s
  rw [run_bind, run_bind]
  rcases a.run s with ⟨e | v, s'⟩
  · exact Or.inr ⟨rfl, refl s'⟩
  · exact hf v s'

/-- As `Near.bind`, where the related state makes no difference after the pass. -/
theorem Near.bind_right (trans : ∀ s t u, R s t → R t u → R s u) (h : Near Lost R a b)
    (frame : ∀ v, Sim R Eq (g v) (g v)) (hf : ∀ v, Near Lost R (f v) (g v)) :
    Near Lost R (a >>= f) (b >>= g) := by
  refine h.follow fun v s t related => (hf v s).imp_right fun near => ?_
  obtain ⟨results, states⟩ := frame v s t related
  exact ⟨near.1.trans results.eq, trans _ _ _ near.2 states⟩

end Near

section Parts

/-- An action on the second part of the state that may read the first one. -/
def reading (wrap : E' → E) (a : T → Eff E' S α) : Eff E (T × S) α :=
  ExceptT.mk fun s =>
    match (a s.1).run s.2 with
    | (.ok v, s') => (.ok v, s.1, s')
    | (.error e, s') => (.error (wrap e), s.1, s')

/-- The first part of the state is set. -/
def setFirst (f : T → T) : Eff E (T × S) Unit := ExceptT.mk fun s => (.ok (), f s.1, s.2)

variable {wrap : E' → E} {a : T → Eff E' S α} {t : T} {s : S}

theorem run_reading : (reading wrap a).run (t, s) =
    match (a t).run s with
    | (.ok v, s') => (.ok v, t, s')
    | (.error e, s') => (.error (wrap e), t, s') := rfl

@[simp] theorem run_setFirst (f : T → T) :
    (setFirst f : Eff E (T × S) Unit).run (t, s) = (.ok (), f t, s) := rfl

theorem run_reading_bind (f : α → Eff E (T × S) β) : (reading wrap a >>= f).run (t, s) =
    match (a t).run s with
    | (.ok v, s') => (f v).run (t, s')
    | (.error e, s') => (.error (wrap e), t, s') := by
  rw [run_bind, run_reading]
  rcases (a t).run s with ⟨e | v, s'⟩ <;> rfl

theorem run_setFirst_bind (f : T → T) (g : Unit → Eff E (T × S) β) :
    (setFirst f >>= g).run (t, s) = (g ()).run (f t, s) := run_bind _ _ _

theorem reading_bind (f : T → α → Eff E' S β) :
    reading wrap (fun t => a t >>= f t) =
      reading wrap a >>= fun v => reading wrap fun t => f t v := by
  refine ExceptT.ext (funext fun ⟨t, s⟩ => ?_)
  rw [run_bind, run_reading, run_reading, run_bind]
  rcases (a t).run s with ⟨e | v, s'⟩ <;> rfl

theorem reading_pure (v : α) :
    reading wrap (fun _ : T => (pure v : Eff E' S α)) = pure v := rfl

/-- Related first parts, and the same second part. -/
def First (R : T → T → Prop) (s s' : T × S) : Prop := R s.1 s'.1 ∧ s.2 = s'.2

variable {R : T → T → Prop} {Q : α → α → Prop} {b : T → Eff E' S α}

theorem sim_reading (h : ∀ t t', R t t' → Sim Eq Q (a t) (b t')) :
    Sim (First R) Q (reading wrap a) (reading wrap b) := by
  rintro ⟨t, s⟩ ⟨t', s'⟩ ⟨related, rfl⟩
  obtain ⟨results, states⟩ := h t t' related s s rfl
  rw [run_reading, run_reading]
  rcases hrun : (a t).run s with ⟨r, u⟩
  rcases hrun' : (b t').run s with ⟨r', u'⟩
  rw [hrun, hrun'] at results states
  cases results with
  | ok alike => exact ⟨.ok alike, related, states⟩
  | error e => exact ⟨.error _, related, states⟩

theorem sim_setFirst {f g : T → T} (h : ∀ t t', R t t' → R (f t) (g t')) :
    Sim (First R) Eq (setFirst f : Eff E (T × S) Unit) (setFirst g) := by
  rintro ⟨t, s⟩ ⟨t', s'⟩ ⟨related, rfl⟩
  exact ⟨.ok rfl, h t t' related, rfl⟩

/-- Part of an action goes first, and leaves what it found in the first part of the state. -/
theorem near_reading {Lost : E → Prop} {l : T → Eff E' S γ} {set : γ → T → T}
    {f g : α → Eff E (T × S) β} (first_refl : ∀ t, R t t) (first : ∀ t c, R t (set c t))
    (parts : ∀ t, Sim Eq Q (a t) (l t >>= fun c => b (set c t)))
    (rest : ∀ v w, Q v w → Sim (First R) Eq (f v) (g w)) :
    Near Lost (First R) (reading wrap a >>= f)
      (reading wrap l >>= fun c => setFirst (set c) >>= fun _ => reading wrap b >>= g) := by
  rintro ⟨t, s⟩
  obtain ⟨results, states⟩ := parts t s s rfl
  rw [run_reading_bind, run_reading_bind]
  rw [run_bind] at results states
  rcases hfirst : (l t).run s with ⟨e | c, s₁⟩ <;> rw [hfirst] at results states
  · rcases hrun : (a t).run s with ⟨r, s'⟩
    rw [hrun] at results states
    cases results
    exact Or.inr ⟨rfl, first_refl t, states⟩
  · simp only [run_setFirst_bind, run_reading_bind]
    rcases hrun : (a t).run s with ⟨r, s'⟩
    rcases hrun' : (b (set c t)).run s₁ with ⟨r', u'⟩
    simp only [hrun, hrun'] at results states
    subst states
    cases results with
    | error e => exact Or.inr ⟨rfl, first t c, rfl⟩
    | ok alike =>
        obtain ⟨results, states⟩ := rest _ _ alike (t, s') (set c t, s') ⟨first t c, rfl⟩
        exact Or.inr ⟨results.eq, states⟩

end Parts

section Still

/-- The action only reads the first part of the state, and gives a value of `Q`. -/
def Still (Q : α → Prop) (a : Eff E (T × S) α) : Prop :=
  ∃ g : T → α, (∀ t, Q (g t)) ∧ ∀ s, a.run s = (.ok (g s.1), s)

/-- The action leaves the first part of the state. -/
def Calm (a : Eff E (T × S) α) : Prop := ∀ s, (a.run s).2.1 = s.1

variable {P Q : α → Prop} {Q' : β → Prop} {a : Eff E (T × S) α} {l : Eff E (T × S) γ}

theorem still_pure {v : α} (h : Q v) : Still Q (pure v : Eff E (T × S) α) :=
  ⟨fun _ => v, fun _ => h, fun _ => rfl⟩

theorem Still.bind {f : α → Eff E (T × S) β} (h : Still Q a) (hf : ∀ v, Q v → Still Q' (f v)) :
    Still Q' (a >>= f) := by
  obtain ⟨g, hg, still⟩ := h
  choose g' hg' still' using hf
  refine ⟨fun t => g' (g t) (hg t) t, fun t => hg' _ _ t, fun s => ?_⟩
  rw [run_bind, still]
  exact still' _ _ s

/-- What only reads may go first. -/
theorem Still.comm {R : γ → Prop} (h : Still R l) (calm : Calm a)
    (f : α → γ → Eff E (T × S) β) :
    (a >>= fun v => l >>= fun c => f v c) = l >>= fun c => a >>= fun v => f v c := by
  obtain ⟨g, -, still⟩ := h
  refine ExceptT.ext (funext fun s => ?_)
  have kept := calm s
  rw [run_bind, run_bind, still]
  dsimp only
  rw [run_bind]
  rcases hrun : a.run s with ⟨e | v, s'⟩
  · rfl
  · rw [hrun] at kept
    dsimp only at kept ⊢
    rw [run_bind, still, kept]

/-- What only reads may be left out. -/
theorem Still.drop (h : Still Q a) (b : Eff E (T × S) β) : (a >>= fun _ => b) = b := by
  obtain ⟨g, -, still⟩ := h
  refine ExceptT.ext (funext fun s => ?_)
  rw [run_bind, still]

end Still

/-- Programs that are alike in every run are one. -/
theorem Sim.eq {a b : Eff E S α} (h : Sim Eq Eq a b) : a = b := by
  refine ExceptT.ext (funext fun s => ?_)
  obtain ⟨results, states⟩ := h s s rfl
  exact Prod.ext results.eq states

end MixT.Library.Eff
