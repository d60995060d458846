import MixT.Flatten.Hoisting

/-! # Flattening preserves meaning

A statement of which a layer is bound first runs as before, but for the new variable. So does a
flattened program, and a loop over a flag runs as the loop over the condition. -/

namespace MixT.Flatten

open Library Library.Eff
open Phase (Signal)

section Later

namespace Slot

def seqnum : Slot → ℕ
  | layer _ s _ | loop s _ => s

def depth : Slot → ℕ
  | layer _ _ d | loop _ d => d

def isLoop : Slot → Bool
  | layer .. => false
  | loop .. => true

end Slot

/-- The variables that are generated from the counters on, for loops or for layers. -/
def Later (loops : Bool) (s d : ℕ) (x : Name) : Prop :=
  ∃ p : Slot, p.isLoop = loops ∧ p.InRange ∧ s ≤ p.seqnum ∧ d ≤ p.depth ∧ x = p.name

theorem Later.mono {loops : Bool} {s d s' d' : ℕ} (hs : s ≤ s') (hd : d ≤ d') {x : Name}
    (h : Later loops s' d' x) : Later loops s d x := by
  obtain ⟨p, kind, inRange, low, low', rfl⟩ := h
  exact ⟨p, kind, inRange, hs.trans low, hd.trans low', rfl⟩

theorem later_self {p : Slot} (inRange : p.InRange) : Later p.isLoop p.seqnum p.depth p.name :=
  ⟨p, rfl, inRange, le_rfl, le_rfl, rfl⟩

theorem later_layer {s d : ℕ} (hs : s ≤ charLimit) (hd : d ≤ charLimit) (k : Kind) :
    Later false s d (Slot.layer k s d).name := later_self (p := .layer k s d) ⟨hs, hd⟩

/-- A generated variable is none of those generated from later counters on. -/
theorem not_later {p : Slot} (inRange : p.InRange) {loops : Bool} {s d : ℕ}
    (after : p.seqnum < s ∨ p.depth < d) : ¬ Later loops s d p.name := by
  rintro ⟨q, -, inRange', low, low', same⟩
  obtain rfl := Slot.name_injective inRange inRange' same
  omega

end Later

namespace Stmt

/-- The condition of each loop is a variable. -/
def Simple : Stmt → Prop
  | letIn _ _ body | letRemote _ _ body => body.Simple
  | ifThen _ thn els => thn.Simple ∧ els.Simple
  | whileLoop c body => c.isVarReference = true ∧ body.Simple
  | cons first rest => first.Simple ∧ rest.Simple
  | assignment .. | operation .. | ret _ | nil => True

end Stmt

namespace Machine

variable {V K F Sh : Type} [Inhabited V] [DecidableEq K] (M : Machine V K F Sh) {n : ℕ}
  {D : Name → Prop} {s d : ℕ} {e b e' : Expr} {k : Kind}

section Layers

/-- The statement with a layer bound first: it runs as before, and mentions the new variable. -/
structure Hoisted (n : ℕ) (D : Name → Prop) (x : Name) (k : Kind) (b : Expr) (st st' : Stmt) :
    Prop where
  near : Near (fun _ => False) (First (Off D)) (M.run n st) (M.run n (bindAs k x b st'))
  bound : ∀ y ∈ b.mentioned, y ∈ st.mentioned
  mentioned : ∀ y ∈ st'.mentioned, y = x ∨ y ∈ st.mentioned
  prompt : b.Prompt M.host ∧ st'.Prompt M.host
  simple : st'.Simple

/-- A statement that evaluates an expression first, with a layer bound before it. -/
theorem near_bindAs {α : Type} {Q : α → α → Prop} {x : Name} (hx : D x)
    {a a' : Cells V → Eval V K F Sh α} {f g : α → Run V K F Sh Unit} {st st' : Stmt}
    (whole : M.run n st = act a >>= f) (left : M.run n st' = act a' >>= g)
    (parts : ∀ cells, Sim Eq Q (a cells)
      (M.layer cells k b >>= fun c => a' (Function.update cells x c)))
    (rest : ∀ v w, Q v w → Sim (First (Off D)) Eq (f v) (g w)) :
    Near (fun _ => False) (First (Off D)) (M.run n st) (M.run n (bindAs k x b st')) := by
  rw [M.run_bindAs, whole, left]
  exact near_reading Off.refl
    (fun cells c => off_update hx cells c) parts rest

theorem near_value {x : Name} (hx : D x) {f : V → Run V K F Sh Unit} {st st' : Stmt}
    (whole : M.run n st = act (fun cells => M.evalTo cells e) >>= f)
    (left : M.run n st' = act (fun cells => M.evalTo cells e') >>= f)
    (peels : ∀ cells, M.evalTo cells e = M.layer cells k b >>= fun c =>
      M.evalTo (Function.update cells x c) e')
    (rest : ∀ v, Sim (First (Off D)) Eq (f v) (f v)) :
    Near (fun _ => False) (First (Off D)) (M.run n st) (M.run n (bindAs k x b st')) := by
  refine M.near_bindAs (Q := Eq) hx whole left (fun cells => ?_) ?_
  · rw [← peels cells]
    exact sim_refl _
  · rintro v _ rfl
    exact rest v

theorem hoisted_letIn (h : Peels s d e k b e') (hx : D (Slot.layer k s d).name) (y : Name)
    (body : Stmt) (avoids : ∀ z ∈ (Stmt.letIn y e body).mentioned, ¬ D z)
    (prompt : (Stmt.letIn y e body).Prompt M.host) (simple : (Stmt.letIn y e body).Simple) :
    M.Hoisted n D (Slot.layer k s d).name k b (.letIn y e body) (.letIn y e' body) := by
  simp only [Stmt.mentioned, List.mem_cons, List.mem_append] at avoids
  have fresh : (Slot.layer k s d).name ∉ e.mentioned := fun mem => avoids _ (Or.inr (Or.inl mem)) hx
  refine ⟨?_, ?_, ?_, ⟨(h.prompt prompt.1).1, (h.prompt prompt.1).2, prompt.2⟩, simple⟩
  · refine M.near_value hx rfl rfl (fun cells => M.evalTo_peels h fresh prompt.1) fun v => ?_
    refine Sim.bind (sim_setFirst fun _ _ off => off.update y _) fun _ _ _ => ?_
    exact M.run_off fun z hz => avoids z (Or.inr (Or.inr hz))
  · grind [Stmt.mentioned, h.mentions.1]
  · grind [Stmt.mentioned, h.mentions.2]

theorem hoisted_letRemote (h : Peels s d e k b e') (hx : D (Slot.layer k s d).name) (y : Name)
    (body : Stmt) (avoids : ∀ z ∈ (Stmt.letRemote y e body).mentioned, ¬ D z)
    (prompt : (Stmt.letRemote y e body).Prompt M.host) (simple : (Stmt.letRemote y e body).Simple) :
    M.Hoisted n D (Slot.layer k s d).name k b (.letRemote y e body) (.letRemote y e' body) := by
  simp only [Stmt.mentioned, List.mem_cons, List.mem_append] at avoids
  have fresh : (Slot.layer k s d).name ∉ e.mentioned := fun mem => avoids _ (Or.inr (Or.inl mem)) hx
  refine ⟨?_, ?_, ?_, ⟨(h.prompt prompt.1).1, (h.prompt prompt.1).2, prompt.2⟩, simple⟩
  · refine M.near_bindAs (Q := Eq) hx rfl rfl (fun cells => ?_) ?_
    · rw [M.evalDeref_peels h fresh prompt.1]
      exact sim_refl _
    · rintro c _ rfl
      refine Sim.bind (sim_setFirst fun _ _ off => off.update y _) fun _ _ _ => ?_
      exact M.run_off fun z hz => avoids z (Or.inr (Or.inr hz))
  · grind [Stmt.mentioned, h.mentions.1]
  · grind [Stmt.mentioned, h.mentions.2]

theorem hoisted_ret (h : Peels s d e k b e') (hx : D (Slot.layer k s d).name)
    (avoids : ∀ z ∈ (Stmt.ret e).mentioned, ¬ D z) (prompt : (Stmt.ret e).Prompt M.host) :
    M.Hoisted n D (Slot.layer k s d).name k b (.ret e) (.ret e') := by
  have fresh : (Slot.layer k s d).name ∉ e.mentioned := fun mem => avoids _ mem hx
  refine ⟨?_, h.mentions.1, h.mentions.2, h.prompt prompt, trivial⟩
  exact M.near_value hx rfl rfl (fun cells => M.evalTo_peels h fresh prompt) fun v => sim_throw _

theorem hoisted_ifThen (h : Peels s d e k b e') (hx : D (Slot.layer k s d).name)
    (thn els : Stmt) (avoids : ∀ z ∈ (Stmt.ifThen e thn els).mentioned, ¬ D z)
    (prompt : (Stmt.ifThen e thn els).Prompt M.host) (simple : (Stmt.ifThen e thn els).Simple) :
    M.Hoisted n D (Slot.layer k s d).name k b (.ifThen e thn els) (.ifThen e' thn els) := by
  simp only [Stmt.mentioned, List.mem_append] at avoids
  have fresh : (Slot.layer k s d).name ∉ e.mentioned := fun mem =>
    avoids _ (Or.inl (Or.inl mem)) hx
  refine ⟨?_, ?_, ?_, ⟨(h.prompt prompt.1).1, (h.prompt prompt.1).2, prompt.2⟩, simple⟩
  · refine M.near_value hx rfl rfl (fun cells => M.evalTo_peels h fresh prompt.1) fun v => ?_
    split
    · exact M.run_off fun z hz => avoids z (Or.inl (Or.inr hz))
    · exact M.run_off fun z hz => avoids z (Or.inr hz)
  · grind [Stmt.mentioned, h.mentions.1]
  · grind [Stmt.mentioned, h.mentions.2]

omit [Inhabited V] in
theorem sim_assign {cells : Cells V} {x : Name} {c : Cell V} (hx : D x) (ordinary : Ordinary x)
    (a : Eval V K F Sh (Operand V)) (p : Eval V K F Sh (Operand V × List Name)) :
    Sim Eq (Off D)
      (do let o ← a; let p ← p; M.assign cells (p.1.settle x c, p.2) (o.settle x c))
      (do let o ← a; let p ← p; M.assign (Function.update cells x c) p o) := by
  refine Sim.bind (sim_refl _) ?_
  rintro o _ rfl
  refine Sim.bind (sim_refl _) ?_
  rintro p _ rfl
  exact M.assign_update hx ordinary p o

theorem hoisted_value (h : Peels s d e k b e') (hx : D (Slot.layer k s d).name) (var : Expr)
    (avoids : ∀ z ∈ (Stmt.assignment var e).mentioned, ¬ D z)
    (prompt : (Stmt.assignment var e).Prompt M.host) :
    M.Hoisted n D (Slot.layer k s d).name k b (.assignment var e) (.assignment var e') := by
  simp only [Stmt.mentioned, List.mem_append] at avoids
  have fresh : (Slot.layer k s d).name ∉ e.mentioned := fun mem => avoids _ (Or.inr mem) hx
  have fresh' : (Slot.layer k s d).name ∉ var.mentioned := fun mem => avoids _ (Or.inl mem) hx
  have ordinary := (Slot.layer k s d).ordinary
  refine ⟨?_, ?_, ?_, ⟨(h.prompt prompt.2).1, prompt.1, (h.prompt prompt.2).2⟩, trivial⟩
  · refine M.near_bindAs (Q := Off D) hx rfl rfl (fun cells => ?_) fun v w off =>
      sim_setFirst fun _ _ _ => off
    rw [M.eval_peels h fresh prompt.2]
    simp only [bind_assoc, pure_bind]
    refine Sim.bind (sim_refl _) ?_
    rintro c _ rfl
    have place := @place_update _ _ _ _ M _ _ cells _ c _ fresh'
    simp only [place, bind_assoc, pure_bind]
    exact M.sim_assign hx ordinary _ _
  · grind [Stmt.mentioned, h.mentions.1]
  · grind [Stmt.mentioned, h.mentions.2]

theorem hoisted_target (h : Peels s d e k b e') (hx : D (Slot.layer k s d).name) (y : Name)
    (pointer : e.containsFieldpointerRef = some true)
    (avoids : ∀ z ∈ (Stmt.assignment e (.varReference y)).mentioned, ¬ D z)
    (prompt : (Stmt.assignment e (.varReference y)).Prompt M.host) :
    M.Hoisted n D (Slot.layer k s d).name k b (.assignment e (.varReference y))
      (.assignment e' (.varReference y)) := by
  simp only [Stmt.mentioned, List.mem_append] at avoids
  have fresh : (Slot.layer k s d).name ∉ e.mentioned := fun mem => avoids _ (Or.inl mem) hx
  have other : y ≠ (Slot.layer k s d).name := by
    rintro rfl
    exact avoids _ (Or.inr List.mem_cons_self) hx
  have ordinary := (Slot.layer k s d).ordinary
  refine ⟨?_, ?_, ?_, ⟨(h.prompt prompt.1).1, (h.prompt prompt.1).2, trivial⟩, trivial⟩
  · refine M.near_bindAs (Q := Off D) hx rfl rfl (fun cells => ?_) fun v w off =>
      sim_setFirst fun _ _ _ => off
    rw [M.place_peels h pointer fresh prompt.1]
    simp only [eval, bind_assoc, pure_bind]
    refine Sim.bind (sim_refl _) ?_
    rintro c _ rfl
    have settled : (Operand.var y : Operand V).settle (Slot.layer k s d).name c = .var y :=
      if_neg other
    have assigned := @sim_assign _ _ _ _ _ M D cells _ c hx ordinary (pure (.var y))
      (M.place (Function.update cells (Slot.layer k s d).name c) e')
    simpa only [pure_bind, settled] using assigned
  · grind [Stmt.mentioned, h.mentions.1]
  · grind [Stmt.mentioned, h.mentions.2]

end Layers

section Calls

def dropReturn : Except (Signal V F) Unit → Except (Signal V F) Unit
  | .error (.returned _) => .ok ()
  | r => r

/-- What is returned is dropped, and the program goes on. -/
def asCall (a : Run V K F Sh Unit) : Run V K F Sh Unit :=
  ExceptT.mk fun s => (dropReturn (a.run s).1, (a.run s).2)

variable {x : Name} {t t' : Stmt}

omit [Inhabited V] [DecidableEq K] in
theorem run_asCall (a : Run V K F Sh Unit) (s : Cells V × (K → V) × Sh) :
    (asCall a).run s = (dropReturn (a.run s).1, (a.run s).2) := rfl

omit [Inhabited V] [DecidableEq K] in
theorem asCall_act {α : Type} (a : Cells V → Eval V K F Sh α) (f : α → Run V K F Sh Unit) :
    asCall (act a >>= f) = act a >>= fun v => asCall (f v) := by
  refine ExceptT.ext (funext fun ⟨cells, s⟩ => ?_)
  rw [run_asCall, act, run_reading_bind, run_reading_bind]
  rcases (a cells).run s with ⟨e | v, s'⟩ <;> rfl

omit [Inhabited V] [DecidableEq K] in
theorem asCall_set (c : Cell V) (a : Run V K F Sh Unit) :
    asCall (set x c >>= fun _ => a) = set x c >>= fun _ => asCall a := rfl

omit [Inhabited V] [DecidableEq K] in
theorem near_asCall {R : Cells V × (K → V) × Sh → Cells V × (K → V) × Sh → Prop}
    {a b : Run V K F Sh Unit} (h : Near (fun _ => False) R a b) :
    Near (fun _ => False) R (asCall a) (asCall b) := by
  intro s
  obtain ⟨e, lost, -⟩ | ⟨results, states⟩ := h s
  · exact lost.elim
  · exact Or.inr ⟨congrArg dropReturn results, states⟩

theorem eval_operation {cells : Cells V} (name : Name) (h : Expr) (exprs : List Expr)
    (vars : List Name) :
    M.eval cells (.operation name h exprs vars) =
      M.evalTo cells (.operation name h exprs vars) >>= fun v => pure (.cell (.value v)) := by
  rw [M.eval_whole rfl (by simp)]
  simp only [layer, bind_assoc, pure_bind]

theorem run_operation (name : Name) (h : Expr) (exprs : List Expr) (vars : List Name) :
    M.run n (.operation name h exprs vars) =
      act (fun cells => M.evalTo cells (.operation name h exprs vars)) >>= fun _ => pure () := by
  simp only [run, act, M.eval_operation, reading_bind, reading_pure, bind_assoc, pure_bind]

/-- A call that is a statement returns nothing. -/
theorem run_operation_ret (name : Name) (h : Expr) (exprs : List Expr) (vars : List Name) :
    M.run n (.operation name h exprs vars) =
      asCall (M.run n (.ret (.operation name h exprs vars))) := by
  rw [M.run_operation, run, asCall_act]
  rfl

theorem operationToStatement_bindAs (x y : Name) (b b' : Expr) (k k' : Kind) (st : Stmt) :
    operationToStatement (bindAs k x b (bindAs k' y b' st)) =
      (operationToStatement (bindAs k' y b' st)).map (bindAs k x b) := by
  cases k <;> cases k' <;> simp only [bindAs, operationToStatement] <;> rfl

/-- The last binding of a call is dropped with the value that is returned. -/
theorem near_lastBinding (hx : D x) (ordinary : Ordinary x) (name : Name) (h : Expr)
    (exprs : List Expr) (vars : List Name) :
    Near (fun _ => False) (First (Off D))
      (asCall (M.run n (.letIn x (.operation name h exprs vars) (.ret (.varReference x)))))
      (M.run n (.operation name h exprs vars)) := by
  rw [M.run_operation, run, asCall_act]
  refine near_bind_same first_refl _ fun v => ?_
  rintro ⟨cells, s⟩
  have held : M.evalTo (Function.update cells x (.value v)) (.varReference x) = pure v := by
    rw [evalTo, eval, pure_bind, M.read_update ordinary, Operand.settle, if_pos rfl]
    rfl
  rw [asCall_set, set, run_setFirst_bind, run_asCall, run, act, run_reading_bind, held]
  exact Or.inr ⟨rfl, (off_update hx cells _).symm, rfl⟩

theorem near_asCall_bindAs {st st' : Stmt}
    (h : Near (fun _ => False) (First (Off D)) (asCall (M.run n st)) (M.run n st')) :
    Near (fun _ => False) (First (Off D)) (asCall (M.run n (bindAs k x b st)))
      (M.run n (bindAs k x b st')) := by
  rw [M.run_bindAs, M.run_bindAs, asCall_act]
  refine near_bind_same first_refl _ fun c => ?_
  rw [asCall_set]
  exact near_bind_same first_refl _ fun _ => h

/-- The bindings of a call, whose last one is the call itself. -/
theorem near_operationToStatement {s' d' : ℕ} (h : Peels s' d' e k b e')
    (hx : D (Slot.layer k s' d').name) (hs : s ≤ charLimit)
    (later : ∀ y, Later false s d y → D y) {t t' : Stmt} (flat : flattenExprs s d (.ret e') = some t)
    (converted : operationToStatement (bindAs k (Slot.layer k s' d').name b t) = some t') :
    Near (fun _ => False) (First (Off D))
      (asCall (M.run n (bindAs k (Slot.layer k s' d').name b t))) (M.run n t') := by
  induction layers : e'.layers generalizing e e' k b s' d' d t t' with
  | nil =>
      obtain ⟨y, rfl⟩ : ∃ y, e' = .varReference y := by
        refine eq_varReference (by_contra fun deep => ?_)
        exact Expr.layers_ne_nil (Bool.eq_false_of_not_eq_true deep) layers
      have var : (Expr.varReference y).isVarReference = true := rfl
      rw [flattenExprs, if_pos var, Option.some.injEq] at flat
      subst flat
      have same : y = (Slot.layer k s' d').name := by cases h <;> rfl
      subst same
      cases k with
      | remote => simp [bindAs, operationToStatement] at converted
      | value =>
          cases b with
          | operation name hndl exprs vars =>
              simp only [bindAs, operationToStatement, Option.some.injEq] at converted
              subst converted
              exact M.near_lastBinding hx (Slot.layer .value s' d').ordinary name hndl exprs vars
          | _ => simp [bindAs, operationToStatement] at converted
  | cons k₁ ks ih =>
      have deep : ¬ e'.isVarReference = true := by
        intro var
        obtain ⟨y, rfl⟩ := eq_varReference var
        cases layers
      rw [flattenExprs, if_neg deep] at flat
      split at flat
      · rename_i below
        obtain ⟨peeled, removed, rest⟩ := Option.bind_eq_some_iff.mp flat
        obtain ⟨k'', b', e'', peels, rfl⟩ := removes_of_removeLayer _ _ removed
        obtain ⟨t₁, flat₁, rfl⟩ := flattenExprs_bindAs peels rest
        rw [operationToStatement_bindAs, Option.map_eq_some_iff] at converted
        obtain ⟨t'', converted, rfl⟩ := converted
        rw [peels.layers_eq, List.cons.injEq] at layers
        have inner := ih peels (later _ (later_layer hs below.le k''))
          (fun y hy => later y (hy.mono le_rfl (by omega))) flat₁ converted layers.2
        exact M.near_asCall_bindAs inner
      · cases flat

end Calls

section Flattening

/-- The programs run alike from the same state, but for variables bound from the counters on. -/
def Flat (n s d : ℕ) (st t : Stmt) : Prop :=
  Near (fun _ => False) (First (Off (Later false s d))) (M.run n st) (M.run n t)

variable {s' d' : ℕ} {st st' t t' : Stmt}

theorem Flat.mono (h : M.Flat n s' d' st t) (hs : s ≤ s') (hd : d ≤ d') : M.Flat n s d st t :=
  Near.mono h fun _ _ related => ⟨related.1.mono fun _ later => later.mono hs hd, related.2⟩

theorem Flat.trans (h : M.Flat n s d st st') (h' : M.Flat n s d st' t) : M.Flat n s d st t :=
  Near.trans first_trans h h'

/-- What a pass may start from at the counters. -/
structure Ready (s d : ℕ) (st : Stmt) : Prop where
  avoids : ∀ y ∈ st.mentioned, ¬ Later false s d y
  prompt : st.Prompt M.host
  simple : st.Simple

omit [Inhabited V] [DecidableEq K] in
/-- What is later in the program starts from later counters. -/
theorem Ready.part (h : M.Ready s d st) (hs : s ≤ s') (hd : d ≤ d')
    (sub : ∀ y ∈ st'.mentioned, y ∈ st.mentioned) (prompt : st'.Prompt M.host) (simple : st'.Simple) :
    M.Ready s' d' st' :=
  ⟨fun y hy later => h.avoids y (sub y hy) (later.mono hs hd), prompt, simple⟩

/-- A layer is bound at the counters, and the pass goes on from later ones. -/
theorem flat_of_removes (sub : Expr → Stmt) (hs : s ≤ charLimit) (hd : d ≤ charLimit)
    (removes : Removes s d sub e st) (after : s < s' ∨ d < d') (hss : s ≤ s') (hdd : d ≤ d')
    (ready : M.Ready s d (sub e))
    (place : ∀ {k b e'}, Peels s d e k b e' →
      M.Hoisted n (Later false s d) (Slot.layer k s d).name k b (sub e) (sub e'))
    (rest : M.Ready s' d' st → M.Flat n s' d' st t) : M.Flat n s d (sub e) t := by
  obtain ⟨k, b, e', peels, rfl⟩ := removes
  have hoisted := place peels
  have next : M.Ready s' d' (bindAs k (Slot.layer k s d).name b (sub e')) := by
    refine ⟨fun y hy later => ?_, ?_, ?_⟩
    · obtain rfl | old : y = (Slot.layer k s d).name ∨ y ∈ (sub e).mentioned := by
        have bound := hoisted.bound y
        have left := hoisted.mentioned y
        cases k <;> grind [bindAs, Stmt.mentioned]
      · exact not_later (p := .layer k s d) ⟨hs, hd⟩ after later
      · exact ready.avoids y old (later.mono hss hdd)
    · cases k <;> exact hoisted.prompt
    · cases k <;> exact hoisted.simple
  exact Near.trans first_trans hoisted.near (Flat.mono M (rest next) hss hdd)

omit [Inhabited V] [DecidableEq K] in
theorem near_turns {R : Cells V × (K → V) × Sh → Cells V × (K → V) × Sh → Prop}
    (refl : ∀ s, R s s) (trans : ∀ s t u, R s t → R t u → R s u) {condition : Run V K F Sh Bool}
    {body body' : Run V K F Sh Unit} (n : ℕ) (hc : Sim R Eq condition condition)
    (hb : Sim R Eq body body) (h : Near (fun _ => False) R body body') :
    Near (fun _ => False) R (turns condition body n) (turns condition body' n) := by
  induction n with
  | zero => exact .refl refl
  | succ n ih =>
      refine near_bind_same refl _ fun go => ?_
      split
      · exact h.bind trans (fun _ => sim_turns n hc hb) fun _ => ih
      · exact .refl refl

theorem condition_off {c : Expr} (avoids : ∀ x ∈ c.mentioned, ¬ D x) :
    Sim (First (Off D)) Eq (M.condition c) (M.condition c) := by
  refine Sim.bind (sim_reading fun _ _ off => M.evalTo_off off avoids) ?_
  rintro v _ rfl
  exact sim_pure rfl

/-- A flattened program runs alike. -/
theorem flat_of_flattenExprs (hs : s ≤ charLimit) (hd : d ≤ charLimit) (ready : M.Ready s d st)
    (flat : flattenExprs s d st = some t) : M.Flat n s d st t := by
  have refl : ∀ {s d} {st : Stmt}, M.Flat n s d st st := Near.refl first_refl
  induction s, d, st using flattenExprs.induct generalizing t with
  | case1 s d x e body below hflat ih =>
      rw [flattenExprs, if_pos below, if_pos hflat, Option.map_eq_some_iff] at flat
      obtain ⟨t', rest, rfl⟩ := flat
      have part : M.Ready s (d + 1) body := Ready.part M ready le_rfl d.le_succ
        (by grind [Stmt.mentioned]) ready.prompt.2 ready.simple
      have inner := Flat.mono M (ih hs below part rest) le_rfl d.le_succ
      exact near_bind_same first_refl _ fun v => near_bind_same first_refl _ fun _ => inner
  | case2 s d x e body below deep ih =>
      rw [flattenExprs, if_pos below, if_neg deep] at flat
      obtain ⟨peeled, removed, rest⟩ := Option.bind_eq_some_iff.mp flat
      exact M.flat_of_removes _ hs hd (removes_of_removeLayer _ _ removed) (Or.inr d.lt_succ_self)
        le_rfl d.le_succ ready
        (fun peels => M.hoisted_letIn peels (later_layer hs hd _) x body ready.avoids ready.prompt
          ready.simple)
        fun ready => ih peeled hs below ready rest
  | case4 s d x e body below var ih =>
      rw [flattenExprs, if_pos below, if_pos var, Option.map_eq_some_iff] at flat
      obtain ⟨t', rest, rfl⟩ := flat
      have part : M.Ready s (d + 1) body := Ready.part M ready le_rfl d.le_succ
        (by grind [Stmt.mentioned]) ready.prompt.2 ready.simple
      have inner := Flat.mono M (ih hs below part rest) le_rfl d.le_succ
      exact near_bind_same first_refl _ fun c => near_bind_same first_refl _ fun _ => inner
  | case5 s d x e body below deep ih =>
      rw [flattenExprs, if_pos below, if_neg deep] at flat
      obtain ⟨peeled, removed, rest⟩ := Option.bind_eq_some_iff.mp flat
      exact M.flat_of_removes _ hs hd (removes_of_removeLayer _ _ removed) (Or.inr d.lt_succ_self)
        le_rfl d.le_succ ready
        (fun peels => M.hoisted_letRemote peels (later_layer hs hd _) x body ready.avoids
          ready.prompt ready.simple)
        fun ready => ih peeled hs below ready rest
  | case7 s d var e hvar noPointer =>
      rw [flattenExprs, if_pos hvar, noPointer] at flat
      cases flat
      exact refl
  | case8 s d var e hvar pointer below ih =>
      rw [flattenExprs, if_pos hvar, pointer] at flat
      simp only [if_pos below] at flat
      obtain ⟨peeled, removed, rest⟩ := Option.bind_eq_some_iff.mp flat
      obtain ⟨y, rfl⟩ := eq_varReference hvar
      exact M.flat_of_removes (fun var => .assignment var (.varReference y)) hs hd
        (removes_of_removeLayer _ _ removed) (Or.inr d.lt_succ_self) le_rfl d.le_succ ready
        (fun peels => M.hoisted_target peels (later_layer hs hd _) y pointer ready.avoids
          ready.prompt)
        fun ready => ih peeled hs below ready rest
  | case11 s d var e deep below ih =>
      rw [flattenExprs, if_neg deep, if_pos below] at flat
      obtain ⟨peeled, removed, rest⟩ := Option.bind_eq_some_iff.mp flat
      exact M.flat_of_removes _ hs hd (removes_of_removeLayer _ _ removed) (Or.inr d.lt_succ_self)
        le_rfl d.le_succ ready
        (fun peels => M.hoisted_value peels (later_layer hs hd _) var ready.avoids ready.prompt)
        fun ready => ih peeled hs below ready rest
  | case13 s d name h exprs vars both =>
      rw [flattenExprs, if_pos both, Option.some.injEq] at flat
      subst flat
      exact refl
  | case14 s d name h exprs vars deep below ih =>
      rw [flattenExprs, if_neg deep, if_pos below] at flat
      obtain ⟨peeled, removed, rest⟩ := Option.bind_eq_some_iff.mp flat
      obtain ⟨t₀, rest, converted⟩ := Option.bind_eq_some_iff.mp rest
      have ready' : M.Ready s d (.ret (.operation name h exprs vars)) :=
        ⟨ready.avoids, ready.prompt, trivial⟩
      have returned : M.Flat n s d (.ret (.operation name h exprs vars)) t₀ :=
        M.flat_of_removes _ hs hd (removes_of_removeLayer _ _ removed) (Or.inl s.lt_succ_self)
          s.le_succ le_rfl ready'
          (fun peels => M.hoisted_ret peels (later_layer hs hd _) ready.avoids ready.prompt)
          fun ready => ih peeled below hd ready rest
      obtain ⟨k, b, e', peels, rfl⟩ := removes_of_removeLayer _ _ removed
      obtain ⟨t₁, flat₁, rfl⟩ := flattenExprs_bindAs peels rest
      have called := M.near_operationToStatement (n := n) (D := Later false s d) peels (later_layer hs hd k)
        below (fun y later => later.mono s.le_succ d.le_succ) flat₁ converted
      have both := (near_asCall returned).trans first_trans called
      rwa [← M.run_operation_ret] at both
  | case16 s d e var =>
      rw [flattenExprs, if_pos var, Option.some.injEq] at flat
      subst flat
      exact refl
  | case17 s d e deep below ih =>
      rw [flattenExprs, if_neg deep, if_pos below] at flat
      obtain ⟨peeled, removed, rest⟩ := Option.bind_eq_some_iff.mp flat
      exact M.flat_of_removes _ hs hd (removes_of_removeLayer _ _ removed) (Or.inr d.lt_succ_self)
        le_rfl d.le_succ ready
        (fun peels => M.hoisted_ret peels (later_layer hs hd _) ready.avoids ready.prompt)
        fun ready => ih peeled hs below ready rest
  | case19 s d c thn els below var next ihThen ihElse =>
      rw [flattenExprs, if_pos below, if_pos var, if_pos next] at flat
      obtain ⟨thn', flatThen, rest⟩ := Option.bind_eq_some_iff.mp flat
      obtain ⟨els', flatElse, rfl⟩ := Option.map_eq_some_iff.mp rest
      have first : M.Ready s (d + 1) thn := Ready.part M ready le_rfl d.le_succ
        (by grind [Stmt.mentioned]) ready.prompt.2.1 ready.simple.1
      have second : M.Ready (s + 1) (d + 1) els := Ready.part M ready s.le_succ d.le_succ
        (by grind [Stmt.mentioned]) ready.prompt.2.2 ready.simple.2
      refine near_bind_same first_refl _ fun v => ?_
      split
      · exact Flat.mono M (ihThen hs below first flatThen) le_rfl d.le_succ
      · exact Flat.mono M (ihElse next below second flatElse) s.le_succ d.le_succ
  | case21 s d c thn els below deep ih =>
      rw [flattenExprs, if_pos below, if_neg deep] at flat
      obtain ⟨peeled, removed, rest⟩ := Option.bind_eq_some_iff.mp flat
      exact M.flat_of_removes (fun c => .ifThen c thn els) hs hd
        (removes_of_removeLayer _ _ removed) (Or.inr d.lt_succ_self) le_rfl d.le_succ ready
        (fun peels => M.hoisted_ifThen peels (later_layer hs hd _) thn els ready.avoids ready.prompt
          ready.simple)
        fun ready => ih peeled hs below ready rest
  | case23 s d c body below var ih =>
      rw [flattenExprs, if_pos below, if_pos var, Option.map_eq_some_iff] at flat
      obtain ⟨t', rest, rfl⟩ := flat
      have part : M.Ready s (d + 1) body := Ready.part M ready le_rfl d.le_succ
        (by grind [Stmt.mentioned]) ready.prompt.2 ready.simple.2
      have inner := Flat.mono M (ih hs below part rest) le_rfl d.le_succ
      refine near_turns first_refl first_trans n (M.condition_off fun y hy => ?_)
        (M.run_off fun y hy => ?_) inner
      · exact ready.avoids y (by simp [Stmt.mentioned, hy])
      · exact ready.avoids y (by simp [Stmt.mentioned, hy])
  | case24 s d c body below deep ih => exact absurd ready.simple.1 deep
  | case26 s d =>
      rw [flattenExprs, Option.some.injEq] at flat
      subst flat
      exact refl
  | case27 s d first rest next ihFirst ihRest =>
      rw [flattenExprs, if_pos next] at flat
      obtain ⟨first', flatFirst, flat⟩ := Option.bind_eq_some_iff.mp flat
      obtain ⟨rest', flatRest, rfl⟩ := Option.map_eq_some_iff.mp flat
      have before : M.Ready s d first := Ready.part M ready le_rfl le_rfl
        (by grind [Stmt.mentioned]) ready.prompt.1 ready.simple.1
      have after : M.Ready (s + 1) d rest := Ready.part M ready s.le_succ le_rfl
        (by grind [Stmt.mentioned]) ready.prompt.2 ready.simple.2
      refine Near.bind first_trans (ihFirst hs hd before flatFirst) (fun _ => ?_) fun _ => ?_
      · exact M.run_off fun y hy => ready.avoids y (by simp [Stmt.mentioned, hy])
      · exact Flat.mono M (ihRest next hd after flatRest) s.le_succ le_rfl
  | _ => simp [flattenExprs, *] at flat

end Flattening

end Machine

end MixT.Flatten
