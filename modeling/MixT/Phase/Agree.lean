import MixT.Phase.Run

/-! # Memories that differ in cursors

Two memories agree when they differ in the cursors of some variables only, none of which
is remote. What reads none of these variables runs alike over both, and the next phase
finds no difference. -/

namespace MixT.Phase

open Library Eff

section Agree

variable {L V F Sh : Type} {D : VarName → Prop}

/-- The holders differ in a cursor at most. -/
inductive Holder.StepsApart : Holder L V → Holder L V → Prop
  | value (t : Option V) : StepsApart (.value t) (.value t)
  | type {g g' : TypeHolder V} : g.t = g'.t → StepsApart (.type g) (.type g')

theorem Holder.StepsApart.trans {h h' h'' : Holder L V} (first : h.StepsApart h')
    (second : h'.StepsApart h'') : h.StepsApart h'' := by
  cases first with
  | value t => exact second
  | type same =>
      cases second with
      | type same' => exact .type (same.trans same')

theorem Holder.StepsApart.right {h h' : Holder L V} (apart : h.StepsApart h') :
    h'.StepsApart h' := by
  cases apart with
  | value t => exact .value t
  | type same => exact .type rfl

/-- The memories are the same up to the cursors of the variables in `D`. -/
structure Agree (D : VarName → Prop) (m m' : Mem L V) : Prop where
  same : ∀ x, ¬ D x → m.holders x = m'.holders x
  apart : ∀ x, D x → (m.holders x).StepsApart (m'.holders x)
  super : m.super = m'.super

variable {m m' : Mem L V}

theorem Agree.trans {m'' : Mem L V} (h : Agree D m m') (h' : Agree D m' m'') : Agree D m m'' :=
  ⟨fun x hx => (h.same x hx).trans (h'.same x hx),
    fun x hx => (h.apart x hx).trans (h'.apart x hx), h.super.trans h'.super⟩

theorem Agree.right (h : Agree D m m') : Agree D m' m' :=
  ⟨fun _ _ => rfl, fun x hx => (h.apart x hx).right, rfl⟩

theorem Agree.setHolder (h : Agree D m m') {x : VarName} {g g' : Holder L V}
    (same : ¬ D x → g = g') (apart : D x → g.StepsApart g') :
    Agree D (m.setHolder x g) (m'.setHolder x g') := by
  refine ⟨fun y hy => ?_, fun y hy => ?_, h.super⟩
  · by_cases here : y = x
    · subst here
      simp [Mem.setHolder, same hy]
    · simp [Mem.setHolder, here, h.same y hy]
  · by_cases here : y = x
    · subst here
      simpa [Mem.setHolder] using apart hy
    · simpa [Mem.setHolder, here] using h.apart y hy

theorem Agree.beginPhase (h : Agree D m m') : m.beginPhase = m'.beginPhase := by
  unfold Mem.beginPhase
  rw [h.super]
  congr 1
  funext x
  by_cases hx : D x
  · have apart := h.apart x hx
    revert apart
    cases m.holders x <;> cases m'.holders x <;> intro apart <;> cases apart
    · rfl
    · rename_i g g' same
      simp [TypeHolder.beginPhase, same]
  · rw [h.same x hx]

variable [Inhabited V] {host : Host V F} {backend : Backend V F Sh} {rightFirst : List Expr → Bool}

theorem Agree.get (h : Agree D m m') {x : VarName} (hx : ¬ D x) : m.get host x = m'.get host x := by
  simp [Mem.get, h.same x hx, h.super]

theorem Agree.getRemote (h : Agree D m m') {x : VarName} (hx : ¬ D x) :
    m.getRemote x = m'.getRemote x := by
  simp [Mem.getRemote, h.same x hx]

theorem Agree.getVar (h : Agree D m m') {x : VarName} (hx : ¬ D x) :
    getVar host backend m x = getVar host backend m' x := by
  simp [Phase.getVar, h.get hx]

variable [DecidableEq L]

omit [Inhabited V] in
theorem Agree.setSuper (h : Agree D m m') (handleType : Ty L) (name : Nat) (g : TypeHolder V) :
    Agree D (m.setSuper handleType name g) (m'.setSuper handleType name g) :=
  ⟨h.same, h.apart, by simp [Mem.setSuper, h.super]⟩

theorem Agree.bind (h : Agree D m m') (x : VarName) (v : V) :
    Sim Eq (Agree D) (m.bind host backend x v) (m'.bind host backend x v) := by
  by_cases hx : D x
  · have apart := h.apart x hx
    unfold Mem.bind
    revert apart
    cases m.holders x <;> cases m'.holders x <;> intro apart <;> cases apart
    · exact sim_pure (h.setHolder (fun _ => rfl) fun _ => .value _)
    · rename_i g g' same
      apply sim_pure
      apply h.setHolder (fun out => absurd hx out)
      intro _
      exact .type (by simp [TypeHolder.push, same])
  · unfold Mem.bind
    rw [← h.same x hx]
    cases m.holders x with
    | value t => exact sim_pure (h.setHolder (fun _ => rfl) fun inside => absurd inside hx)
    | type g => exact sim_pure (h.setHolder (fun _ => rfl) fun inside => absurd inside hx)
    | remote handleType handle currPos =>
        apply (sim_refl _).bind
        rintro o _ rfl
        apply (sim_refl _).bind
        rintro _ _ -
        apply sim_pure
        rw [← h.super]
        exact (h.setHolder (fun _ => rfl) fun inside => absurd inside hx).setSuper _ _ _

theorem Agree.push (h : Agree D m m') (x : VarName) (v : V) :
    Sim Eq (Agree D) (m.push host backend x v) (m'.push host backend x v) := by
  by_cases hx : D x
  · have apart := h.apart x hx
    unfold Mem.push
    revert apart
    cases m.holders x <;> cases m'.holders x <;> intro apart <;> cases apart
    · exact sim_pure (h.setHolder (fun _ => rfl) fun _ => .value _)
    · rename_i g g' same
      apply sim_pure
      apply h.setHolder (fun out => absurd hx out)
      intro _
      exact .type (by simp [TypeHolder.push, same])
  · unfold Mem.push
    rw [← h.same x hx]
    cases m.holders x with
    | value t => exact sim_pure (h.setHolder (fun _ => rfl) fun inside => absurd inside hx)
    | type g => exact sim_pure (h.setHolder (fun _ => rfl) fun inside => absurd inside hx)
    | remote handleType handle currPos =>
        apply (sim_refl _).bind
        rintro _ _ -
        apply sim_pure
        rw [← h.super]
        exact h.setSuper _ _ _

omit [Inhabited V] in
theorem Agree.refresh (h : Agree D m m') (handleType : Ty L) (v : V) :
    Sim Eq (Agree D) (m.refresh host backend handleType v)
      (m'.refresh host backend handleType v) := by
  apply (sim_refl _).bind
  rintro o _ rfl
  apply sim_pure
  rw [← h.super]
  exact h.setSuper _ _ _

theorem Agree.increment (h : Agree D m m') (x : VarName) :
    Agree D (m.increment host x) (m'.increment host x) := by
  by_cases hx : D x
  · have apart := h.apart x hx
    unfold Mem.increment
    revert apart
    cases m.holders x <;> cases m'.holders x <;> intro apart <;> cases apart
    · exact h
    · rename_i g g' same
      apply h.setHolder (fun out => absurd hx out)
      intro _
      exact .type same
  · unfold Mem.increment
    rw [← h.same x hx]
    cases m.holders x with
    | value t => exact h
    | type g => exact h.setHolder (fun _ => rfl) fun inside => absurd inside hx
    | remote handleType handle currPos =>
        dsimp only
        split
        · rw [← h.super]
          exact h.setSuper _ _ _
        · exact h

theorem Agree.incrementRemote (h : Agree D m m') (x : VarName) :
    Agree D (m.incrementRemote host x) (m'.incrementRemote host x) := by
  by_cases hx : D x
  · have apart := h.apart x hx
    unfold Mem.incrementRemote
    revert apart
    cases m.holders x <;> cases m'.holders x <;> intro apart <;> cases apart
    · exact h
    · exact h
  · unfold Mem.incrementRemote
    rw [← h.same x hx]
    cases m.holders x with
    | value t => exact h
    | type g => exact h
    | remote handleType handle currPos =>
        exact (h.setHolder (fun _ => rfl) fun inside => absurd inside hx).increment x

/-- A step over a variable of `D` leaves memories that agree. -/
theorem Agree.increment_left (h : Agree D m m') {x : VarName} (hx : D x) :
    Agree D (m.increment host x) m' := by
  have apart := h.apart x hx
  unfold Mem.increment
  refine ⟨fun y hy => ?_, fun y hy => ?_, ?_⟩
  · have other : y ≠ x := fun same => hy (same ▸ hx)
    revert apart
    cases m.holders x <;> intro apart
    · exact h.same y hy
    · simpa [Mem.setHolder, other] using h.same y hy
    · cases apart
  · revert apart
    cases hm : m.holders x <;> intro apart
    · exact h.apart y hy
    · by_cases here : y = x
      · subst here
        rw [← hm] at apart
        have old := h.apart y hy
        rw [hm] at old
        simp only [Mem.setHolder, Function.update_self]
        cases hm' : m'.holders y <;> rw [hm'] at old <;> cases old
        exact .type ‹_›
      · simpa [Mem.setHolder, here] using h.apart y hy
    · cases apart
  · revert apart
    cases m.holders x <;> intro apart
    · exact h.super
    · exact h.super
    · cases apart

theorem Agree.incrementRemote_left (h : Agree D m m') {x : VarName} (hx : D x) :
    Agree D (m.incrementRemote host x) m' := by
  have apart := h.apart x hx
  unfold Mem.incrementRemote
  revert apart
  cases m.holders x <;> intro apart
  · exact h
  · exact h
  · cases apart

end Agree

section Exec

variable {L V F Sh α : Type} {D : VarName → Prop}

/-- The memories agree and the shared states are the same. -/
def AgreeOn (D : VarName → Prop) (s s' : Mem L V × Sh) : Prop := Agree D s.1 s'.1 ∧ s.2 = s'.2

theorem sim_ofAct {a a' : Mem L V → Act F Sh α} (h : ∀ m m', Agree D m m' → a m = a' m') :
    Sim (AgreeOn D) Eq (Exec.ofAct a) (Exec.ofAct a') := by
  rintro ⟨m, sh⟩ ⟨m', _⟩ ⟨agree, rfl⟩
  simp only [Exec.ofAct, ExceptT.run_mk, h m m' agree]
  rcases (a' m').run sh with ⟨f | v, sh'⟩
  · exact ⟨.error _, agree, rfl⟩
  · exact ⟨.ok rfl, agree, rfl⟩

theorem sim_change {a a' : Mem L V → Act F Sh (Mem L V)}
    (h : ∀ m m', Agree D m m' → Sim Eq (Agree D) (a m) (a' m')) :
    Sim (AgreeOn D) Eq (Exec.change a) (Exec.change a') := by
  rintro ⟨m, sh⟩ ⟨m', _⟩ ⟨agree, rfl⟩
  obtain ⟨results, states⟩ := h m m' agree sh sh rfl
  simp only [Exec.change, ExceptT.run_mk]
  rcases hrun : (a m).run sh with ⟨r, sh'⟩
  rcases hrun' : (a' m').run sh with ⟨r', sh''⟩
  rw [hrun, hrun'] at results states
  cases results with
  | ok agree' => exact ⟨.ok rfl, agree', states⟩
  | error f => exact ⟨.error _, agree, states⟩

theorem sim_turns {push push' : Nat → Exec L V F Sh Unit} {body body' : Exec L V F Sh Unit}
    {condition condition' : Exec L V F Sh Bool}
    (hpush : ∀ i, Sim (AgreeOn D) Eq (push i) (push' i)) (hbody : Sim (AgreeOn D) Eq body body')
    (hcondition : Sim (AgreeOn D) Eq condition condition') (n i : Nat) (go : Bool) :
    Sim (AgreeOn D) Eq (turns push body condition n i go)
      (turns push' body' condition' n i go) := by
  induction n generalizing i go with
  | zero =>
      cases go with
      | false => exact sim_pure rfl
      | true => exact sim_throw _
  | succ n ih =>
      cases go with
      | false => exact sim_pure rfl
      | true =>
          apply (hpush (i + 1)).bind
          rintro _ _ -
          apply hbody.bind
          rintro _ _ -
          apply hcondition.bind
          rintro go _ rfl
          exact ih (i + 1) go

theorem sim_repeatTurns {body body' : Exec L V F Sh Unit} (h : Sim (AgreeOn D) Eq body body')
    (n : Nat) : Sim (AgreeOn D) Eq (repeatTurns body n) (repeatTurns body' n) := by
  induction n with
  | zero => exact sim_pure rfl
  | succ n ih =>
      apply h.bind
      rintro _ _ -
      exact ih

end Exec

end MixT.Phase
