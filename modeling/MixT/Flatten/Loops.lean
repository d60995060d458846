import MixT.Flatten.Preserved

/-! # Loops over flags

The first pass makes of a loop one over a flag, which its body clears where the condition does not
hold. It takes one turn more, and ends where the loop over the condition ends. -/

namespace MixT.Flatten

open Library Library.Eff
open Phase (Signal)

namespace Machine

variable {V K F Sh : Type} [Inhabited V] [DecidableEq K] (M : Machine V K F Sh) {n m : ℕ}
  {D : Name → Prop} {s d : ℕ} {cells : Cells V} {store : (K → V) × Sh} {w : Name} {c : Expr}
  {body : Stmt}

section Turns

/-- The run that ended for want of turns says nothing. -/
def OutOfTurns (e : Signal V F) : Prop := e = .outOfTurns

omit [Inhabited V] [DecidableEq K] in
theorem read_held (ordinary : Ordinary w) {v : V} (held : cells w = .value v) :
    M.read cells (.var w) = pure v := by
  simp [read, ordinary.1, ordinary.2.1, ordinary.2.2, held, readCell]

theorem run_condition : (M.condition c).run (cells, store) =
    match (M.evalTo cells c).run store with
    | (.ok v, store') => (.ok (M.host.truth v), cells, store')
    | (.error e, store') => (.error (.fault e), cells, store') := by
  rw [condition, act, run_reading_bind]
  rcases (M.evalTo cells c).run store with ⟨e | v, store'⟩ <;> rfl

/-- A turn of a loop. -/
theorem run_turn (body : Run V K F Sh Unit) :
    (turns (M.condition c) body (n + 1)).run (cells, store) =
      match (M.evalTo cells c).run store with
      | (.ok v, store') =>
          if M.host.truth v then (body >>= fun _ => turns (M.condition c) body n).run (cells, store')
          else (.ok (), cells, store')
      | (.error e, store') => (.error (.fault e), cells, store') := by
  rw [turns, run_bind, M.run_condition]
  rcases (M.evalTo cells c).run store with ⟨e | v, store'⟩
  · rfl
  · dsimp only
    split <;> rfl

theorem run_noTurn (body : Run V K F Sh Unit) :
    (turns (M.condition c) body 0).run (cells, store) =
      match (M.evalTo cells c).run store with
      | (.ok v, store') =>
          if M.host.truth v then (.error .outOfTurns, cells, store') else (.ok (), cells, store')
      | (.error e, store') => (.error (.fault e), cells, store') := by
  rw [turns, run_bind, M.run_condition]
  rcases (M.evalTo cells c).run store with ⟨e | v, store'⟩
  · rfl
  · dsimp only
    split <;> rfl

variable (truth : ∀ b, M.host.truth (M.host.ofBool b) = b)

/-- The body of the loop over the flag `w`. -/
def flagged (w : Name) (c : Expr) (body : Stmt) : Stmt :=
  .ifThen c body (.assignment (.varReference w) (.varReference falseName))

theorem evalTo_flag (ordinary : Ordinary w) {v : V} (held : cells w = .value v) :
    M.evalTo cells (.varReference w) = pure v := by
  rw [evalTo, eval, pure_bind, M.read_held ordinary held]

/-- The flag is cleared. -/
theorem run_clear {v : V} (held : cells w = .value v) :
    (M.run m (.assignment (.varReference w) (.varReference falseName))).run (cells, store) =
      (.ok (), Function.update cells w (.value (M.host.ofBool false)), store) := by
  have cleared : (do
      let o ← M.eval cells (.varReference falseName)
      let p ← M.place cells (.varReference w)
      M.assign cells p o) =
        pure (Function.update cells w (.value (M.host.ofBool false))) := by
    simp [eval, place, assign, setOperand, read, held, falseName, trueName]
  rw [run, act, run_reading_bind, cleared]
  rfl

theorem run_flagged {v : V} (held : cells w = .value v) :
    (M.run m (flagged w c body)).run (cells, store) =
      match (M.evalTo cells c).run store with
      | (.ok v, store') =>
          if M.host.truth v then (M.run m body).run (cells, store')
          else (.ok (), Function.update cells w (.value (M.host.ofBool false)), store')
      | (.error e, store') => (.error (.fault e), cells, store') := by
  rw [flagged, run, act, run_reading_bind]
  rcases (M.evalTo cells c).run store with ⟨e | v, store'⟩
  · rfl
  · dsimp only
    split
    · rfl
    · exact M.run_clear held

include truth

theorem run_flagDown (ordinary : Ordinary w) (held : cells w = .value (M.host.ofBool false))
    (body : Run V K F Sh Unit) :
    (turns (M.condition (.varReference w)) body n).run (cells, store) = (.ok (), cells, store) := by
  cases n with
  | zero => rw [M.run_noTurn, M.evalTo_flag ordinary held]; simp [truth]
  | succ n => rw [M.run_turn, M.evalTo_flag ordinary held]; simp [truth]

/-- A turn of the loop over a flag that is set. -/
theorem run_flagUp (ordinary : Ordinary w) (held : cells w = .value (M.host.ofBool true)) :
    (turns (M.condition (.varReference w)) (M.run m (flagged w c body)) (n + 1)).run (cells, store) =
      match (M.evalTo cells c).run store with
      | (.ok v, store') =>
          if M.host.truth v then
            (M.run m body >>= fun _ =>
              turns (M.condition (.varReference w)) (M.run m (flagged w c body)) n).run (cells, store')
          else
            (.ok (), Function.update cells w (.value (M.host.ofBool false)), store')
      | (.error e, store') => (.error (.fault e), cells, store') := by
  rw [M.run_turn, M.evalTo_flag ordinary held]
  simp only [run_pure, truth, if_true]
  rw [run_bind, M.run_flagged held]
  rcases (M.evalTo cells c).run store with ⟨e | v, store'⟩
  · rfl
  · by_cases go : M.host.truth v = true
    · simp only [go, if_true]
      rw [run_bind]
    · simp only [go, if_false, Bool.false_eq_true]
      exact M.run_flagDown truth ordinary (Function.update_self _ _ _) _

end Turns

section FlagLoops

variable {E : Name → Prop} {body' : Stmt} {i j : ℕ} {cells' : Cells V}

/-- Where the bodies are near, they are from alike variables, and the flag stays. -/
theorem near_body (near : Near OutOfTurns (First (Off E)) (M.run i body) (M.run j body'))
    (sub : ∀ x, E x → D x) (outside : ¬ E w) (gone : D w)
    (avoids : ∀ x ∈ body.mentioned, ¬ D x) (off : Off D cells cells') (store : (K → V) × Sh) :
    (∃ e, OutOfTurns e ∧ ((M.run i body).run (cells, store)).1 = .error e) ∨
      ((M.run i body).run (cells, store)).1 = ((M.run j body').run (cells', store)).1 ∧
        First (Off D) ((M.run i body).run (cells, store)).2 ((M.run j body').run (cells', store)).2 ∧
          ((M.run j body').run (cells', store)).2.1 w = cells' w := by
  obtain ⟨results, states⟩ := M.run_off avoids (n := i) (cells, store) (cells', store) ⟨off, rfl⟩
  have kept := M.run_keeps (n := i) (fun mem => avoids w mem gone) (cells', store)
  obtain ⟨e, lost, failed⟩ | ⟨results', states'⟩ := near (cells', store)
  · exact Or.inl ⟨e, lost, results.eq.trans failed⟩
  · refine Or.inr ⟨results.eq.trans results', ?_, (states'.1 w outside).symm.trans kept⟩
    exact first_trans _ _ _ states ⟨states'.1.mono sub, states'.2⟩

theorem near_body_back (near : Near OutOfTurns (First (Off E)) (M.run j body') (M.run i body))
    (sub : ∀ x, E x → D x) (outside : ¬ E w) (gone : D w)
    (avoids : ∀ x ∈ body.mentioned, ¬ D x) (off : Off D cells cells') (store : (K → V) × Sh) :
    (∃ e, OutOfTurns e ∧ ((M.run j body').run (cells', store)).1 = .error e) ∨
      ((M.run i body).run (cells, store)).1 = ((M.run j body').run (cells', store)).1 ∧
        First (Off D) ((M.run i body).run (cells, store)).2 ((M.run j body').run (cells', store)).2 ∧
          ((M.run j body').run (cells', store)).2.1 w = cells' w := by
  obtain ⟨results, states⟩ := M.run_off avoids (n := i) (cells, store) (cells', store) ⟨off, rfl⟩
  have kept := M.run_keeps (n := i) (fun mem => avoids w mem gone) (cells', store)
  refine (near (cells', store)).imp_right fun back => ?_
  obtain ⟨results', states'⟩ := back
  refine ⟨results.eq.trans results'.symm, ?_, (states'.1 w outside).trans kept⟩
  exact first_trans _ _ _ states ⟨states'.1.symm.mono sub, states'.2.symm⟩

variable (truth : ∀ b, M.host.truth (M.host.ofBool b) = b)

include truth

/-- The loop over the flag ends as the loop over the condition does. -/
theorem near_flagLoop (near : Near OutOfTurns (First (Off E)) (M.run i body) (M.run j body'))
    (ordinary : Ordinary w) (sub : ∀ x, E x → D x) (outside : ¬ E w) (gone : D w)
    (avoids : ∀ x ∈ body.mentioned, ¬ D x) (condition : ∀ x ∈ c.mentioned, ¬ D x) (n : ℕ)
    (off : Off D cells cells') (held : cells' w = .value (M.host.ofBool true)) :
    let source := (turns (M.condition c) (M.run i body) n).run (cells, store)
    let target := (turns (M.condition (.varReference w)) (M.run j (flagged w c body')) (n + 1)).run
      (cells', store)
    (∃ e, OutOfTurns e ∧ source.1 = .error e) ∨
      source.1 = target.1 ∧ First (Off D) source.2 target.2 := by
  induction n generalizing cells cells' store with
  | zero =>
      rw [M.run_noTurn, M.run_flagUp truth ordinary held, (M.evalTo_off off condition).eq]
      rcases (M.evalTo cells' c).run store with ⟨e | v, store'⟩
      · exact Or.inr ⟨rfl, off, rfl⟩
      · by_cases go : M.host.truth v = true
        · exact Or.inl ⟨_, rfl, by simp [go]⟩
        · simp only [go, if_false, Bool.false_eq_true]
          exact Or.inr ⟨trivial, off.trans (off_update gone _ _), rfl⟩
  | succ n ih =>
      rw [M.run_turn, M.run_flagUp truth ordinary held, (M.evalTo_off off condition).eq]
      rcases (M.evalTo cells' c).run store with ⟨e | v, store'⟩
      · exact Or.inr ⟨rfl, off, rfl⟩
      · by_cases go : M.host.truth v = true
        · simp only [go, if_true]
          rw [run_bind, run_bind]
          have step := M.near_body near sub outside gone avoids off store'
          rcases hrun : (M.run i body).run (cells, store') with ⟨r, cells₁, store₁⟩
          rcases hrun' : (M.run j body').run (cells', store') with ⟨r', cells₁', store₁'⟩
          rw [hrun, hrun'] at step
          obtain ⟨e, lost, rfl⟩ | ⟨rfl, ⟨off₁, rfl⟩, flag⟩ := step
          · exact Or.inl ⟨e, lost, rfl⟩
          · cases r with
            | error e => exact Or.inr ⟨rfl, off₁, rfl⟩
            | ok v => exact ih off₁ (flag.trans held)
        · simp only [go, if_false, Bool.false_eq_true]
          exact Or.inr ⟨trivial, off.trans (off_update gone _ _), rfl⟩

/-- The loop over the condition ends as the loop over the flag does. -/
theorem near_flagLoop_back (near : Near OutOfTurns (First (Off E)) (M.run j body') (M.run i body))
    (ordinary : Ordinary w) (sub : ∀ x, E x → D x) (outside : ¬ E w) (gone : D w)
    (avoids : ∀ x ∈ body.mentioned, ¬ D x) (condition : ∀ x ∈ c.mentioned, ¬ D x) (n : ℕ)
    (off : Off D cells cells') (held : cells' w = .value (M.host.ofBool true)) :
    let source := (turns (M.condition c) (M.run i body) n).run (cells, store)
    let target := (turns (M.condition (.varReference w)) (M.run j (flagged w c body')) n).run
      (cells', store)
    (∃ e, OutOfTurns e ∧ target.1 = .error e) ∨
      source.1 = target.1 ∧ First (Off D) source.2 target.2 := by
  induction n generalizing cells cells' store with
  | zero =>
      rw [M.run_noTurn (c := .varReference w), M.evalTo_flag ordinary held]
      exact Or.inl ⟨_, rfl, by simp [truth]⟩
  | succ n ih =>
      rw [M.run_turn, M.run_flagUp truth ordinary held, (M.evalTo_off off condition).eq]
      rcases (M.evalTo cells' c).run store with ⟨e | v, store'⟩
      · exact Or.inr ⟨rfl, off, rfl⟩
      · by_cases go : M.host.truth v = true
        · simp only [go, if_true]
          rw [run_bind, run_bind]
          have step := M.near_body_back near sub outside gone avoids off store'
          rcases hrun : (M.run i body).run (cells, store') with ⟨r, cells₁, store₁⟩
          rcases hrun' : (M.run j body').run (cells', store') with ⟨r', cells₁', store₁'⟩
          rw [hrun, hrun'] at step
          obtain ⟨e, lost, rfl⟩ | ⟨rfl, ⟨off₁, rfl⟩, flag⟩ := step
          · exact Or.inl ⟨e, lost, rfl⟩
          · cases r with
            | error e => exact Or.inr ⟨rfl, off₁, rfl⟩
            | ok v => exact ih off₁ (flag.trans held)
        · simp only [go, if_false, Bool.false_eq_true]
          exact Or.inr ⟨trivial, off.trans (off_update gone _ _), rfl⟩

end FlagLoops

section Desugaring

variable {t : Stmt}

/-- The first pass gives each loop one turn more. Where one of the programs ends, the other one
ends alike. -/
structure Desugars (s d : ℕ) (st t : Stmt) : Prop where
  forth : ∀ n, Near OutOfTurns (First (Off (Later true s d))) (M.run n st) (M.run (n + 1) t)
  back : ∀ n, Near OutOfTurns (First (Off (Later true s d))) (M.run n t) (M.run n st)

variable {st st' t' : Stmt} {s' d' : ℕ}

theorem Desugars.mono (h : M.Desugars s' d' st t) (hs : s ≤ s') (hd : d ≤ d') :
    M.Desugars s d st t where
  forth n := (h.forth n).mono fun _ _ related =>
    ⟨related.1.mono fun _ later => later.mono hs hd, related.2⟩
  back n := (h.back n).mono fun _ _ related =>
    ⟨related.1.mono fun _ later => later.mono hs hd, related.2⟩

/-- A statement without loops in it. -/
theorem Desugars.of_eq (same : ∀ n m, M.run n st = M.run m st) : M.Desugars s d st st where
  forth n := by
    rw [same n (n + 1)]
    exact .refl first_refl
  back n := .refl first_refl

/-- A flag is set before its loop. -/
theorem run_setFlag (body : Stmt) :
    (M.run n (.letIn w (.varReference trueName) (.whileLoop (.varReference w) body))).run
        (cells, store) =
      (turns (M.condition (.varReference w)) (M.run n body) n).run
        (Function.update cells w (.value (M.host.ofBool true)), store) := by
  have up : M.evalTo cells (.varReference trueName) = pure (M.host.ofBool true) := by
    rw [evalTo, eval, pure_bind, read, if_pos rfl]
  rw [run, act, run_reading_bind, up]
  rfl

variable (truth : ∀ b, M.host.truth (M.host.ofBool b) = b)

include truth

/-- The first pass preserves what a program does. -/
theorem desugars_of_desugarWhile (hs : s ≤ charLimit) (hd : d ≤ charLimit)
    (avoids : ∀ x ∈ st.mentioned, ¬ Later true s d x) (desugar : desugarWhile s d st = some t) :
    M.Desugars s d st t := by
  induction st generalizing s d t with
  | letIn x e body ih =>
      rw [desugarWhile] at desugar
      split at desugar
      next below =>
        obtain ⟨body', desugarBody, rfl⟩ := Option.map_eq_some_iff.mp desugar
        have inner := Desugars.mono M (ih hs below (fun y hy later =>
          avoids y (by simp [Stmt.mentioned, hy]) (later.mono le_rfl d.le_succ)) desugarBody)
          le_rfl d.le_succ
        constructor
        · exact fun n => near_bind_same first_refl _ fun v => near_bind_same first_refl _ fun _ =>
            inner.forth n
        · exact fun n => near_bind_same first_refl _ fun v => near_bind_same first_refl _ fun _ =>
            inner.back n
      next => cases desugar
  | letRemote x e body ih =>
      rw [desugarWhile] at desugar
      split at desugar
      next below =>
        obtain ⟨body', desugarBody, rfl⟩ := Option.map_eq_some_iff.mp desugar
        have inner := Desugars.mono M (ih hs below (fun y hy later =>
          avoids y (by simp [Stmt.mentioned, hy]) (later.mono le_rfl d.le_succ)) desugarBody)
          le_rfl d.le_succ
        constructor
        · exact fun n => near_bind_same first_refl _ fun v => near_bind_same first_refl _ fun _ =>
            inner.forth n
        · exact fun n => near_bind_same first_refl _ fun v => near_bind_same first_refl _ fun _ =>
            inner.back n
      next => cases desugar
  | assignment var e =>
      cases desugar
      exact .of_eq M fun _ _ => rfl
  | operation name h exprs vars =>
      cases desugar
      exact .of_eq M fun _ _ => rfl
  | ret e =>
      cases desugar
      exact .of_eq M fun _ _ => rfl
  | ifThen c thn els ihThen ihElse =>
      rw [desugarWhile] at desugar
      split at desugar
      next below =>
        obtain ⟨thn', desugarThen, desugar⟩ := Option.bind_eq_some_iff.mp desugar
        obtain ⟨els', desugarElse, rfl⟩ := Option.map_eq_some_iff.mp desugar
        have first := Desugars.mono M (ihThen hs below.1 (fun y hy later =>
          avoids y (by simp [Stmt.mentioned, hy]) (later.mono le_rfl d.le_succ)) desugarThen)
          le_rfl d.le_succ
        have second := Desugars.mono M (ihElse below.2 below.1 (fun y hy later =>
          avoids y (by simp [Stmt.mentioned, hy]) (later.mono s.le_succ d.le_succ)) desugarElse)
          s.le_succ d.le_succ
        constructor
        · refine fun n => near_bind_same first_refl _ fun v => ?_
          split
          · exact first.forth n
          · exact second.forth n
        · refine fun n => near_bind_same first_refl _ fun v => ?_
          split
          · exact first.back n
          · exact second.back n
      next => cases desugar
  | whileLoop c body ih =>
      rw [desugarWhile] at desugar
      split at desugar
      next below =>
        obtain ⟨body', desugarBody, rfl⟩ := Option.map_eq_some_iff.mp desugar
        have inner := ih hs below (fun y hy later =>
          avoids y (by simp [Stmt.mentioned, hy]) (later.mono le_rfl d.le_succ)) desugarBody
        have inRange : (Slot.loop s d).InRange := ⟨hs, hd⟩
        have gone : Later true s d (Slot.loop s d).name := later_self inRange
        have sub : ∀ x, Later true s (d + 1) x → Later true s d x :=
          fun x later => later.mono le_rfl d.le_succ
        have outside : ¬ Later true s (d + 1) (Slot.loop s d).name :=
          not_later inRange (Or.inr d.lt_succ_self)
        have condition : ∀ x ∈ c.mentioned, ¬ Later true s d x :=
          fun y hy => avoids y (by simp [Stmt.mentioned, hy])
        have unmentioned : ∀ x ∈ body.mentioned, ¬ Later true s d x :=
          fun y hy => avoids y (by simp [Stmt.mentioned, hy])
        constructor
        · rintro n ⟨cells, store⟩
          rw [M.run_setFlag]
          exact M.near_flagLoop truth (inner.forth n) (Slot.loop s d).ordinary sub outside gone
            unmentioned condition n (off_update gone _ _) (Function.update_self _ _ _)
        · rintro n ⟨cells, store⟩
          rw [M.run_setFlag]
          refine (M.near_flagLoop_back truth (inner.back n) (Slot.loop s d).ordinary sub outside gone
            unmentioned condition n (off_update gone _ _) (Function.update_self _ _ _)).imp_right ?_
          exact fun near => ⟨near.1.symm, first_symm _ _ near.2⟩
      next => cases desugar
  | nil =>
      cases desugar
      exact .of_eq M fun _ _ => rfl
  | cons first rest ihFirst ihRest =>
      rw [desugarWhile] at desugar
      split at desugar
      next below =>
        obtain ⟨first', desugarFirst, desugar⟩ := Option.bind_eq_some_iff.mp desugar
        obtain ⟨rest', desugarRest, rfl⟩ := Option.map_eq_some_iff.mp desugar
        have before := ihFirst hs hd (fun y hy => avoids y (by simp [Stmt.mentioned, hy]))
          desugarFirst
        have after := Desugars.mono M (ihRest below hd (fun y hy later =>
          avoids y (by simp [Stmt.mentioned, hy]) (later.mono s.le_succ le_rfl)) desugarRest)
          s.le_succ le_rfl
        have frame : ∀ n, Sim (First (Off (Later true s d))) Eq (M.run n rest) (M.run n rest) :=
          fun n => M.run_off fun y hy => avoids y (by simp [Stmt.mentioned, hy])
        constructor
        · exact fun n => (before.forth n).bind first_trans (fun _ => frame n) fun _ => after.forth n
        · exact fun n => (before.back n).bind_right first_trans (fun _ => frame n) fun _ =>
            after.back n
      next => cases desugar

end Desugaring

end Machine

section Generated

/-- The variable is spelled like a generated one. -/
def Generated (x : Name) : Prop := ∃ p : Slot, p.InRange ∧ x = p.name

theorem Later.generated {loops : Bool} {s d : ℕ} {x : Name} (h : Later loops s d x) : Generated x := by
  obtain ⟨p, -, inRange, -, -, rfl⟩ := h
  exact ⟨p, inRange, rfl⟩

variable {V F : Type} {host : Phase.Host V F} {s d : ℕ} {st t : Stmt}

/-- What the first pass makes mentions the flags and the constants besides, and has loops over
flags. -/
structure Looped (host : Phase.Host V F) (st t : Stmt) : Prop where
  mentioned : ∀ y ∈ t.mentioned, y ∈ st.mentioned ∨ y = trueName ∨ y = falseName ∨
    ∃ s d, (Slot.loop s d).InRange ∧ y = (Slot.loop s d).name
  prompt : st.Prompt host → t.Prompt host
  simple : t.Simple

theorem looped_of_desugarWhile (hs : s ≤ charLimit) (hd : d ≤ charLimit)
    (desugar : desugarWhile s d st = some t) : Looped host st t := by
  induction st generalizing s d t with
  | letIn x e body ih =>
      rw [desugarWhile] at desugar
      split at desugar
      next below =>
        obtain ⟨body', desugarBody, rfl⟩ := Option.map_eq_some_iff.mp desugar
        obtain ⟨mentioned, prompt, simple⟩ := ih hs below desugarBody
        exact ⟨by grind [Stmt.mentioned], fun h => ⟨h.1, prompt h.2⟩, simple⟩
      next => cases desugar
  | letRemote x e body ih =>
      rw [desugarWhile] at desugar
      split at desugar
      next below =>
        obtain ⟨body', desugarBody, rfl⟩ := Option.map_eq_some_iff.mp desugar
        obtain ⟨mentioned, prompt, simple⟩ := ih hs below desugarBody
        exact ⟨by grind [Stmt.mentioned], fun h => ⟨h.1, prompt h.2⟩, simple⟩
      next => cases desugar
  | ifThen c thn els ihThen ihElse =>
      rw [desugarWhile] at desugar
      split at desugar
      next below =>
        obtain ⟨thn', desugarThen, desugar⟩ := Option.bind_eq_some_iff.mp desugar
        obtain ⟨els', desugarElse, rfl⟩ := Option.map_eq_some_iff.mp desugar
        obtain ⟨mentioned, prompt, simple⟩ := ihThen hs below.1 desugarThen
        obtain ⟨mentioned', prompt', simple'⟩ := ihElse below.2 below.1 desugarElse
        exact ⟨by grind [Stmt.mentioned], fun h => ⟨h.1, prompt h.2.1, prompt' h.2.2⟩,
          simple, simple'⟩
      next => cases desugar
  | whileLoop c body ih =>
      rw [desugarWhile] at desugar
      split at desugar
      next below =>
        obtain ⟨body', desugarBody, rfl⟩ := Option.map_eq_some_iff.mp desugar
        obtain ⟨mentioned, prompt, simple⟩ := ih hs below desugarBody
        refine ⟨fun y hy => ?_, fun h => ⟨trivial, trivial, h.1, prompt h.2, trivial, trivial⟩,
          rfl, simple, trivial⟩
        have flag : y = whileName s d → ∃ s d, (Slot.loop s d).InRange ∧ y = (Slot.loop s d).name :=
          fun same => ⟨s, d, ⟨hs, hd⟩, same⟩
        grind [Stmt.mentioned, Expr.mentioned]
      next => cases desugar
  | cons first rest ihFirst ihRest =>
      rw [desugarWhile] at desugar
      split at desugar
      next below =>
        obtain ⟨first', desugarFirst, desugar⟩ := Option.bind_eq_some_iff.mp desugar
        obtain ⟨rest', desugarRest, rfl⟩ := Option.map_eq_some_iff.mp desugar
        obtain ⟨mentioned, prompt, simple⟩ := ihFirst hs hd desugarFirst
        obtain ⟨mentioned', prompt', simple'⟩ := ihRest below hd desugarRest
        exact ⟨by grind [Stmt.mentioned], fun h => ⟨prompt h.1, prompt' h.2⟩, simple, simple'⟩
      next => cases desugar
  | _ =>
      cases desugar
      exact ⟨fun y hy => Or.inl hy, id, trivial⟩

/-- The second pass starts from what the first one makes. -/
theorem Looped.avoids (h : Looped host st t) (unspelled : ∀ x ∈ st.mentioned, ¬ Generated x)
    (y : Name) (hy : y ∈ t.mentioned) : ¬ Later false s d y := by
  intro later
  obtain old | rfl | rfl | ⟨s', d', inRange, rfl⟩ := h.mentioned y hy
  · exact unspelled y old later.generated
  · obtain ⟨p, -, -, -, -, same⟩ := later
    exact p.ordinary.1 same.symm
  · obtain ⟨p, -, -, -, -, same⟩ := later
    exact p.ordinary.2.1 same.symm
  · obtain ⟨p, kind, inRange', -, -, same⟩ := later
    obtain rfl := Slot.name_injective inRange inRange' same
    cases kind

end Generated

namespace Machine

variable {V K F Sh : Type} [Inhabited V] [DecidableEq K] (M : Machine V K F Sh)

theorem ends_of_isOk {n : ℕ} {st : Stmt} {s : Cells V × (K → V) × Sh}
    (h : ((M.run n st).run s).1.isOk = true) : M.Ends st s (.ok ()) ((M.run n st).run s).2 := by
  rcases hrun : (M.run n st).run s with ⟨e | _, s'⟩
  · rw [hrun] at h
    cases h
  · exact ⟨n, hrun, by simp⟩

/-- Flattening preserves meaning. Where a program ends, its flattened program ends with the same
result and the same stores, and all variables but the generated ones hold the same, and the other
way round. -/
theorem flattenExpressions_ends (truth : ∀ b, M.host.truth (M.host.ofBool b) = b) {st t : Stmt}
    (compiles : flattenExpressions st = some t) (unspelled : ∀ x ∈ st.mentioned, ¬ Generated x)
    (prompt : st.Prompt M.host) (s : Cells V × (K → V) × Sh) (r : Except (Signal V F) Unit) :
    (∀ s', M.Ends st s r s' → ∃ s'', M.Ends t s r s'' ∧ First (Off Generated) s' s'') ∧
      ∀ s'', M.Ends t s r s'' → ∃ s', M.Ends st s r s' ∧ First (Off Generated) s' s'' := by
  obtain ⟨st', desugar, flat⟩ := Option.bind_eq_some_iff.mp compiles
  have looped : Looped M.host st st' := looped_of_desugarWhile (by decide) (by decide) desugar
  have loops := M.desugars_of_desugarWhile truth (by decide) (by decide)
    (fun x hx later => unspelled x hx later.generated) desugar
  have layers : ∀ n, M.Flat n 1 1 st' t := fun n =>
    M.flat_of_flattenExprs (by decide) (by decide)
      ⟨looped.avoids unspelled, looped.prompt prompt, looped.simple⟩ flat
  have generated : ∀ {l : Bool} (s t : Cells V × (K → V) × Sh),
      First (Off (Later l 1 1)) s t → First (Off Generated) s t :=
    fun s t related => ⟨related.1.mono fun _ later => later.generated, related.2⟩
  have forth : ∀ n, Near OutOfTurns (First (Off Generated)) (M.run n st) (M.run (n + 1) t) :=
    fun n => ((loops.forth n).mono generated).trans first_trans
      (Near.lose (Near.mono (layers (n + 1)) generated))
  have back : ∀ n, Near OutOfTurns (First (Off Generated)) (M.run n t) (M.run n st) :=
    fun n => (Near.lose (Near.mono (Near.symm first_symm (layers n)) generated)).trans first_trans
      ((loops.back n).mono generated)
  constructor
  · rintro s' ⟨n, run, ended⟩
    obtain ⟨e, rfl, failed⟩ | ⟨results, states⟩ := forth n s
    · rw [run] at failed
      exact absurd failed ended
    · rw [run] at results states
      exact ⟨((M.run (n + 1) t).run s).2, ⟨n + 1, Prod.ext results.symm rfl, ended⟩, states⟩
  · rintro s'' ⟨n, run, ended⟩
    obtain ⟨e, rfl, failed⟩ | ⟨results, states⟩ := back n s
    · rw [run] at failed
      exact absurd failed ended
    · rw [run] at results states
      exact ⟨((M.run n st).run s).2, ⟨n, Prod.ext results.symm rfl, ended⟩,
        first_symm _ _ states⟩

end Machine

section Programs

open Flatten.Expr Stmt

/-- Integers, and a store of integers that handles are the positions in. -/
def intMachine : Machine Int Int Unit (List Int) where
  host :=
    { ofInt := id
      ofBool := fun b => if b then 1 else 0
      truth := fun v => v ≠ 0
      count := Int.toNat
      binOp := fun op l r =>
        match op with
        | .minus => .ok (l - r)
        | .greater => .ok (if r < l then 1 else 0)
        | _ => .error ()
      field := fun v _ => v
      setField := fun _ _ v => v
      nulled := id
      name := Int.toNat }
  backend :=
    { get := fun h => ExceptT.mk fun objects => (.ok (objects.getD h.toNat 0), objects)
      put := fun h v => ExceptT.mk fun objects => (.ok (), objects.set h.toNat v)
      isValid := fun _ => pure 1
      createNew := fun _ _ => throw ()
      act := fun _ _ _ => throw ()
      readTracking := fun _ => pure ()
      accompanyWrite := fun _ _ => pure ()
      writeTombstone := fun _ => pure ()
      generateTombstone := pure 0
      listStub := pure 0
      ensureList := fun _ => pure ()
      pushBack := fun _ _ => pure () }
  key := id

/-- `while (x > 0) { x = x - *h, *h.f = x }` -/
def countDown : Stmt :=
  whileLoop (binOp .greater (varReference ['x']) (constant 0))
    (cons (assignment (varReference ['x'])
        (binOp .minus (varReference ['x']) (dereference (varReference ['h']))))
      (cons (assignment (fieldPointerReference (varReference ['h']) ['f']) (varReference ['x'])) nil))

theorem countDown_compiles : ∃ t, flattenExpressions countDown = some t := by
  simp [flattenExpressions, countDown, desugarWhile, flattenExprs, removeLayer, removeDereference,
    bindLayer, charLimit, isFlat, isVarReference, containsFieldpointerRef]

/-- Five less one is four, then the object is four and none is left. -/
def countDownStart : Cells Int × (Int → Int) × List Int :=
  (fun x => if x = ['x'] then .value 5 else .value 0, fun _ => 0, [1])

theorem countDown_runs :
    ∃ s, intMachine.Ends countDown countDownStart (.ok ()) s ∧ s.2.2 = [0] := by
  have finishes : ((intMachine.run 2 countDown).run countDownStart).1.isOk = true := by
    decide +kernel
  exact ⟨_, intMachine.ends_of_isOk finishes, by decide +kernel⟩

/-- The flattened program counts down as the program does. -/
theorem countDown_ends :
    ∃ t, flattenExpressions countDown = some t ∧
      ∃ s, intMachine.Ends t countDownStart (.ok ()) s ∧ s.2.2 = [0] := by
  obtain ⟨t, compiles⟩ := countDown_compiles
  have unspelled : ∀ x ∈ countDown.mentioned, ¬ Generated x := by
    rintro x hx ⟨p, -, rfl⟩
    have short : p.name.length ≠ 1 := by
      rcases p with ⟨_ | _, s, d⟩ | ⟨s, d⟩ <;> simp [Slot.name, generateName, remoteName, whileName]
    simp [countDown, Stmt.mentioned, Expr.mentioned] at hx
    grind
  have truth : ∀ b, intMachine.host.truth (intMachine.host.ofBool b) = b := by decide
  have prompt : countDown.Prompt intMachine.host := by
    simp [countDown, Stmt.Prompt, Expr.Prompt]
  obtain ⟨s, runs, left⟩ := countDown_runs
  obtain ⟨s', ended, near⟩ := (intMachine.flattenExpressions_ends truth compiles unspelled prompt
    countDownStart (.ok ())).1 s runs
  exact ⟨t, compiles, s', ended, near.2 ▸ left⟩

end Programs

end MixT.Flatten
