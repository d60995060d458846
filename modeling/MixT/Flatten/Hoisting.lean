import MixT.Flatten.Frames

/-! # Layers that go first

Where a layer of an expression is bound before its statement, the rest of the expression stands for
the same. An operand of `&&` or `||` that is bound must be one that may go first. -/

namespace MixT.Flatten

open Library Library.Eff
open Phase (Host)

section Quiet

variable {V F : Type} (host : Host V F)

/-- An operator without faults. -/
def Total (op : BinOperator) : Prop :=
  op = .and ∨ op = .or ∨ ∀ l r, ∃ v, host.binOp op l r = .ok v

namespace Expr

/-- The expression only reads variables. -/
def Quiet : Expr → Prop
  | varReference x => x ≠ listName
  | constant _ => True
  | fieldReference e _ | endorse _ e | ensure _ e => e.Quiet
  | binOp op l r => Total host op ∧ l.Quiet ∧ r.Quiet
  | _ => False

mutual

/-- The right operands of `&&` and `||` only read variables. -/
def Prompt : Expr → Prop
  | varReference _ | constant _ => True
  | fieldReference e _ | fieldPointerReference e _ | dereference e | isValid e | endorse _ e
  | ensure _ e => e.Prompt
  | binOp op l r => l.Prompt ∧ r.Prompt ∧ (op = .and ∨ op = .or → r.Quiet host)
  | operation _ h exprs _ => h.Prompt ∧ PromptAll exprs

def PromptAll : List Expr → Prop
  | [] => True
  | e :: es => e.Prompt ∧ PromptAll es

end

end Expr

/-- The right operands of `&&` and `||` in a program only read variables. -/
def Stmt.Prompt : Stmt → Prop
  | letIn _ e body | letRemote _ e body => e.Prompt host ∧ body.Prompt
  | assignment var e => var.Prompt host ∧ e.Prompt host
  | operation _ h exprs _ => h.Prompt host ∧ Expr.PromptAll host exprs
  | ret e => e.Prompt host
  | ifThen c thn els => c.Prompt host ∧ thn.Prompt ∧ els.Prompt
  | whileLoop c body => c.Prompt host ∧ body.Prompt
  | nil => True
  | cons first rest => first.Prompt ∧ rest.Prompt

end Quiet

/-- The variable is none of the constants. -/
def Ordinary (x : Name) : Prop := x ≠ trueName ∧ x ≠ falseName ∧ x ≠ listName

theorem Slot.ordinary (p : Slot) : Ordinary p.name := by
  rcases p with ⟨_ | _, s, d⟩ | ⟨s, d⟩ <;>
    simp [Ordinary, name, generateName, remoteName, whileName, trueName, falseName, listName]

/-- The cell that a variable is bound to, in place of the variable. -/
def Operand.settle {V : Type} (x : Name) (c : Cell V) : Operand V → Operand V
  | .var y => if y = x then .cell c else .var y
  | .cell c' => .cell c'

namespace Machine

variable {V K F Sh : Type} (M : Machine V K F Sh) {cells : Cells V} {x : Name} {c : Cell V}

section Operands

theorem read_update (hx : Ordinary x) (o : Operand V) :
    M.read (Function.update cells x c) o = M.read cells (o.settle x c) := by
  cases o with
  | cell c' => rfl
  | var y =>
      by_cases same : y = x
      · subst same
        simp [read, Operand.settle, hx.1, hx.2.1, hx.2.2]
      · simp [read, Operand.settle, same]

theorem readAll_update (hx : Ordinary x) (os : List (Operand V)) :
    M.readAll (Function.update cells x c) os = M.readAll cells (os.map (Operand.settle x c)) := by
  induction os with
  | nil => rfl
  | cons o os ih => rw [readAll, List.map_cons, readAll, ih, M.read_update hx]

theorem settle_of_spares {o : Operand V} (h : o.Spares (· = x)) : o.settle x c = o := by
  cases o with
  | cell c' => rfl
  | var y => exact if_neg h

theorem off_self (cells : Cells V) (x : Name) (c : Cell V) :
    Off (· = x) cells (Function.update cells x c) :=
  off_update (D := (· = x)) rfl cells c

end Operands

section Binary

variable {op : BinOperator} {α : Type}

theorem binary_left (l : Eval V K F Sh α) (f : α → Eval V K F Sh (Operand V))
    (r : Eval V K F Sh (Operand V)) :
    M.binary cells op (l >>= f) r = l >>= fun v => M.binary cells op (f v) r := by
  cases op <;> simp only [binary, bind_assoc]

theorem binary_update (hx : Ordinary x) (l r : Eval V K F Sh (Operand V)) :
    M.binary (Function.update cells x c) op l r =
      M.binary cells op (l >>= fun o => pure (o.settle x c)) (r >>= fun o => pure (o.settle x c)) := by
  cases op <;> simp only [binary, bind_assoc, pure_bind, M.read_update hx]

theorem calm_readCell (c : Cell V) : Calm (M.readCell c) := by
  rintro ⟨cache, sh⟩
  cases c <;> rfl

theorem calm_read (o : Operand V) : Calm (M.read cells o) := by
  cases o with
  | cell c => exact M.calm_readCell c
  | var y =>
      simp only [read]
      split
      · exact fun _ => rfl
      · split
        · exact fun _ => rfl
        · split
          · rintro ⟨cache, sh⟩
            rw [lift, run_reading]
            rcases M.backend.listStub.run sh with ⟨e | v, sh'⟩ <;> rfl
          · exact M.calm_readCell _

/-- What only reads may go before the operator, also where its operand is not required. -/
theorem binary_right {Q : α → Prop} {l : Eval V K F Sh α}
    (still : op = .and ∨ op = .or → Still Q l) (o : Operand V)
    (f : α → Eval V K F Sh (Operand V)) :
    M.binary cells op (pure o) (l >>= f) = l >>= fun v => M.binary cells op (pure o) (f v) := by
  have required : ∀ (p : Prop) [Decidable p] (β : Type) (g : α → Eval V K F Sh β)
      (b : Eval V K F Sh β), Still Q l →
        (if p then l >>= g else b) = l >>= fun v => if p then g v else b := by
    intro p _ β g b still
    split
    · rfl
    · exact (still.drop b).symm
  cases op with
  | and =>
      have still := still (Or.inl rfl)
      simp only [binary, pure_bind, bind_assoc, required _ _ _ _ still]
      exact still.comm (M.calm_read o) _
  | or =>
      have still := still (Or.inr rfl)
      simp only [binary, pure_bind, bind_assoc]
      rw [← still.comm (M.calm_read o)]
      congr 1
      funext lval
      split
      · exact (still.drop _).symm
      · rfl
  | _ => simp only [binary, pure_bind, bind_assoc]

theorem still_readCell (c : Cell V) : Still (fun _ => True) (M.readCell c) := by
  cases c with
  | value v => exact still_pure trivial
  | remote h => exact ⟨fun cache => cache (M.key h), fun _ => trivial, fun _ => rfl⟩

theorem still_read {o : Operand V} (h : o.Spares (· = listName)) :
    Still (fun _ => True) (M.read cells o) := by
  cases o with
  | cell c => exact M.still_readCell c
  | var x =>
      simp only [read]
      split
      · exact still_pure trivial
      · split
        · exact still_pure trivial
        · rw [if_neg h]
          exact M.still_readCell _

theorem still_binary {op : BinOperator} (total : Total M.host op)
    {l r : Eval V K F Sh (Operand V)} (left : Still (Operand.Spares (· = listName)) l)
    (right : Still (Operand.Spares (· = listName)) r) :
    Still (fun _ => True) (M.binary cells op l r) := by
  have fault : ∀ lval rval, op ≠ .and → op ≠ .or →
      Still (fun _ => True) (Eff.ofExcept (M.host.binOp op lval rval) : Eval V K F Sh V) := by
    intro lval rval notAnd notOr
    obtain ⟨v, same⟩ := ((total.resolve_left notAnd).resolve_left notOr) lval rval
    rw [same]
    exact still_pure trivial
  cases op with
  | and =>
      refine left.bind fun o ho => (M.still_read ho).bind fun v _ => ?_
      split
      · exact right.bind fun o' ho' => (M.still_read ho').bind fun w _ => still_pure trivial
      · exact still_pure trivial
  | or =>
      refine left.bind fun o ho => (M.still_read ho).bind fun v _ => ?_
      split
      · exact still_pure trivial
      · exact right.bind fun o' ho' => (M.still_read ho').bind fun w _ => still_pure trivial
  | _ =>
      exact left.bind fun o ho => right.bind fun o' ho' => (M.still_read ho).bind fun v _ =>
        (M.still_read ho').bind fun w _ => fault v w (by simp) (by simp)

end Binary

section Expressions

variable [Inhabited V] [DecidableEq K]

/-- What a layer is bound to. -/
def layer (cells : Cells V) (k : Kind) (b : Expr) : Eval V K F Sh (Cell V) :=
  match k with
  | .value => do
      let v ← M.evalTo cells b
      pure (.value v)
  | .remote => M.eval cells b >>= M.deref cells

theorem run_bindAs (n : ℕ) (k : Kind) (x : Name) (b : Expr) (st : Stmt) :
    M.run n (bindAs k x b st) =
      act (fun cells => M.layer cells k b) >>= fun c => set x c >>= fun _ => M.run n st := by
  cases k with
  | remote => rfl
  | value =>
      change (act _ >>= fun v => set x (.value v) >>= fun _ => M.run n st) = _
      simp only [act, layer, reading_bind, reading_pure, bind_assoc, pure_bind]

omit [Inhabited V] in
theorem deref_update (hx : Ordinary x) :
    M.deref (Function.update cells x c) = fun o => M.deref cells (o.settle x c) := by
  funext o
  rw [deref, deref, M.read_update hx]

omit [Inhabited V] [DecidableEq K] in
theorem settle_vars {xs : List Name} (fresh : x ∉ xs) :
    (xs.map .var).map (Operand.settle x c) = xs.map .var := by
  rw [List.map_map]
  refine List.map_congr_left fun y hy => if_neg ?_
  rintro rfl
  exact fresh hy

theorem eval_update {e : Expr} (fresh : x ∉ e.mentioned) :
    M.eval cells e =
      M.eval (Function.update cells x c) e >>= fun o => pure (o.settle x c) := by
  have avoids : ∀ y ∈ e.mentioned, ¬ y = x := by
    rintro y hy rfl
    exact fresh hy
  rw [← bind_pure (M.eval cells e)]
  refine Sim.eq (Sim.bind (M.eval_off (off_self cells x c) avoids) ?_)
  rintro o _ ⟨rfl, spares⟩
  rw [settle_of_spares spares]
  exact sim_refl _

theorem evalAll_update {es : List Expr} (fresh : x ∉ Expr.mentionedAll es) :
    M.evalAll cells es = M.evalAll (Function.update cells x c) es >>= fun os =>
      pure (os.map (Operand.settle x c)) := by
  have avoids : ∀ y ∈ Expr.mentionedAll es, ¬ y = x := by
    rintro y hy rfl
    exact fresh hy
  rw [← bind_pure (M.evalAll cells es)]
  refine Sim.eq (Sim.bind (M.evalAll_off (off_self cells x c) avoids) ?_)
  rintro os _ ⟨rfl, spares⟩
  rw [List.map_congr_left fun o ho => settle_of_spares (spares o ho), List.map_id']
  exact sim_refl _

theorem still_eval : ∀ {e : Expr}, e.Quiet M.host →
    Still (Operand.Spares (· = listName)) (M.eval cells e)
  | .varReference _, h => still_pure h
  | .constant _, _ => still_pure trivial
  | .fieldReference e _, h | .endorse _ e, h | .ensure _ e, h =>
      (still_eval (e := e) h).bind fun _ ho => (M.still_read ho).bind fun _ _ => still_pure trivial
  | .binOp _ _ _, h =>
      (M.still_binary h.1 (still_eval h.2.1) (still_eval h.2.2)).bind fun _ _ => still_pure trivial

theorem still_layer {e : Expr} (h : e.Quiet M.host) :
    Still (fun _ => True) (M.layer cells .value e) :=
  ((M.still_eval h).bind fun _ ho => M.still_read ho).bind fun _ _ => still_pure trivial

end Expressions

end Machine

section Peels

variable {V F : Type} {host : Host V F} {s d : ℕ} {e b e' : Expr} {k : Kind}

theorem Peels.quiet (h : Peels s d e k b e') (quiet : e.Quiet host) :
    k = .value ∧ b.Quiet host ∧ e'.Quiet host := by
  have name := ((Slot.layer .value s d).ordinary).2.2
  induction h with
  | constant i => exact ⟨rfl, trivial, name⟩
  | field x f => exact ⟨rfl, quiet, name⟩
  | binOp op x y => exact ⟨rfl, quiet, name⟩
  | endorse l x => exact ⟨rfl, quiet, name⟩
  | ensure l x => exact ⟨rfl, quiet, name⟩
  | fieldIn f h ih => exact ih quiet
  | endorseIn l h ih => exact ih quiet
  | ensureIn l h ih => exact ih quiet
  | binOpRight op x h ih =>
      obtain ⟨kind, bound, rest⟩ := ih quiet.2.2
      exact ⟨kind, bound, quiet.1, quiet.2.1, rest⟩
  | binOpLeft op r h ih =>
      obtain ⟨kind, bound, rest⟩ := ih quiet.2.1
      exact ⟨kind, bound, quiet.1, rest, quiet.2.2⟩
  | _ => exact quiet.elim

theorem Expr.promptAll_vars (xs : List Name) (es : List Expr) :
    PromptAll host (xs.map varReference ++ es) ↔ PromptAll host es := by
  induction xs with
  | nil => rfl
  | cons x xs ih => simp [PromptAll, Prompt, ih]

theorem Peels.prompt (h : Peels s d e k b e') (prompt : e.Prompt host) :
    b.Prompt host ∧ e'.Prompt host := by
  induction h with
  | binOpRight op x h ih =>
      obtain ⟨bound, rest⟩ := ih prompt.2.1
      exact ⟨bound, trivial, rest, fun lazy => (h.quiet (prompt.2.2 lazy)).2.2⟩
  | binOpLeft op r h ih =>
      obtain ⟨bound, rest⟩ := ih prompt.1
      exact ⟨bound, rest, prompt.2⟩
  | handle n exprs vars h ih =>
      obtain ⟨bound, rest⟩ := ih prompt.1
      exact ⟨bound, rest, prompt.2⟩
  | argument n h before exprs vars h' ih =>
      have all := (Expr.promptAll_vars before _).mp prompt.2
      obtain ⟨bound, rest⟩ := ih all.1
      exact ⟨bound, trivial, rest, all.2⟩
  | fieldIn f h ih => exact ih prompt
  | pointer f h ih => exact ih prompt
  | dereferenceIn h ih => exact ih prompt
  | isValidIn h ih => exact ih prompt
  | endorseIn l h ih => exact ih prompt
  | ensureIn l h ih => exact ih prompt
  | call n h xs vars => exact ⟨⟨trivial, trivial⟩, trivial⟩
  | _ => exact ⟨prompt, trivial⟩

theorem Expr.mem_mentionedAll_vars {xs : List Name} {es : List Expr} {x : Name} :
    x ∈ mentionedAll (xs.map varReference ++ es) ↔ x ∈ xs ∨ x ∈ mentionedAll es := by
  induction xs with
  | nil => simp
  | cons y xs ih => simp [mentionedAll, mentioned, ih, or_assoc]

/-- What is bound mentions variables of the expression, what is left the new one as well. -/
theorem Peels.mentions (h : Peels s d e k b e') :
    (∀ x ∈ b.mentioned, x ∈ e.mentioned) ∧
      ∀ x ∈ e'.mentioned, x = (Slot.layer k s d).name ∨ x ∈ e.mentioned := by
  induction h with
  | argument n h before exprs vars h' ih =>
      simp only [Expr.mentioned, List.mem_append, Expr.mem_mentionedAll_vars, Expr.mentionedAll]
      grind
  | call n h xs vars =>
      have all := fun x => @Expr.mem_mentionedAll_vars xs [] x
      simp only [List.append_nil] at all
      simp only [Expr.mentioned, List.mem_append, all, Expr.mentionedAll]
      grind [Slot.name]
  | _ => grind [Expr.mentioned, Slot.name]

end Peels

namespace Machine

variable {V K F Sh : Type} (M : Machine V K F Sh) [Inhabited V] [DecidableEq K] {cells : Cells V}

/-- An expression that stands for a value is bound whole. -/
theorem eval_whole {e : Expr} (notVar : e.isVarReference = false)
    (notRemote : ∀ e', e ≠ .dereference e') :
    M.eval cells e = M.layer cells .value e >>= fun c => pure (.cell c) := by
  cases e with
  | varReference x => cases notVar
  | dereference e => exact absurd rfl (notRemote e)
  | _ => simp only [eval, layer, evalTo, read, readCell, bind_assoc, pure_bind]

theorem eval_pointer (e : Expr) (f : Name) :
    M.eval cells (.fieldPointerReference e f) = M.eval cells (.fieldReference (.dereference e) f) := by
  simp only [eval, read, bind_assoc, pure_bind]

theorem evalAll_vars (xs : List Name) (es : List Expr) :
    M.evalAll cells (xs.map .varReference ++ es) =
      M.evalAll cells es >>= fun os => pure (xs.map .var ++ os) := by
  induction xs with
  | nil => simp only [List.map_nil, List.nil_append, bind_pure]
  | cons x xs ih =>
      simp only [List.map_cons, List.cons_append, evalAll, eval, pure_bind, ih, bind_assoc]

/-- The innermost layer goes first. -/
theorem eval_peels {s d : ℕ} {e b e' : Expr} {k : Kind} (h : Peels s d e k b e')
    (fresh : (Slot.layer k s d).name ∉ e.mentioned) (prompt : e.Prompt M.host) :
    M.eval cells e = M.layer cells k b >>= fun c =>
      M.eval (Function.update cells (Slot.layer k s d).name c) e' >>= fun o =>
        pure (o.settle (Slot.layer k s d).name c) := by
  have ordinary := (Slot.layer k s d).ordinary
  have whole : ∀ {e : Expr} {x : Name}, e.isVarReference = false → (∀ e', e ≠ .dereference e') →
      M.eval cells e = M.layer cells .value e >>= fun c =>
        M.eval (Function.update cells x c) (.varReference x) >>= fun o => pure (o.settle x c) := by
    intro e x notVar notRemote
    simp only [M.eval_whole notVar notRemote, eval, pure_bind, Operand.settle, if_true]
  induction h with
  | constant i => exact whole rfl (by simp)
  | field x f => exact whole rfl (by simp)
  | fieldIn f h ih =>
      rw [eval, ih fresh prompt ordinary]
      simp only [eval, bind_assoc, pure_bind, M.read_update ordinary, Operand.settle]
  | pointer f h ih =>
      rw [M.eval_pointer, eval, ih fresh prompt ordinary]
      simp only [eval, bind_assoc, pure_bind, M.read_update ordinary, Operand.settle]
  | dereference x =>
      simp only [eval, layer, pure_bind, Operand.settle, Slot.name, if_true]
  | dereferenceIn h ih =>
      rw [eval, ih fresh prompt ordinary]
      simp only [eval, bind_assoc, pure_bind, M.deref_update ordinary, Operand.settle]
  | binOp op x y => exact whole rfl (by simp)
  | @binOpRight r k b r' op y h ih =>
      simp only [Expr.mentioned, List.mem_append, List.mem_singleton, not_or] at fresh
      have still : op = .and ∨ op = .or → Still (fun _ => True) (M.layer cells k b) := by
        intro lazy
        obtain ⟨rfl, quiet, -⟩ := h.quiet (prompt.2.2 lazy)
        exact M.still_layer quiet
      rw [eval, ih fresh.2 prompt.2.1 ordinary, eval, M.binary_right still, bind_assoc]
      simp only [eval, bind_assoc, pure_bind, M.binary_update ordinary, Operand.settle,
        if_neg (Ne.symm fresh.1)]
  | binOpLeft op r h ih =>
      simp only [Expr.mentioned, List.mem_append, not_or] at fresh
      rw [eval, ih fresh.1 prompt.1 ordinary, M.binary_left, bind_assoc]
      refine congrArg _ (funext fun c => ?_)
      rw [M.eval_update fresh.2, ← M.binary_update ordinary]
      simp only [eval, bind_assoc, pure_bind, Operand.settle]
  | isValid x => exact whole rfl (by simp)
  | isValidIn h ih =>
      rw [eval, ih fresh prompt ordinary]
      simp only [eval, bind_assoc, pure_bind, M.read_update ordinary, Operand.settle]
  | endorse l x => exact whole rfl (by simp)
  | endorseIn l h ih =>
      rw [eval, ih fresh prompt ordinary]
      simp only [eval, bind_assoc, pure_bind, M.read_update ordinary, Operand.settle]
  | ensure l x => exact whole rfl (by simp)
  | ensureIn l h ih =>
      rw [eval, ih fresh prompt ordinary]
      simp only [eval, bind_assoc, pure_bind, M.read_update ordinary, Operand.settle]
  | handle n exprs vars h ih =>
      simp only [Expr.mentioned, List.mem_append, not_or] at fresh
      rw [eval, ih fresh.1.1 prompt.1 ordinary, bind_assoc]
      refine congrArg _ (funext fun c => ?_)
      rw [M.evalAll_update (c := c) fresh.1.2]
      simp only [eval, bind_assoc, pure_bind, M.read_update ordinary, M.readAll_update ordinary,
        List.map_append, settle_vars fresh.2, Operand.settle]
  | argument n h before exprs vars h' ih =>
      simp only [Expr.mentioned, List.mem_append, Expr.mem_mentionedAll_vars, Expr.mentionedAll,
        List.mem_singleton, not_or] at fresh
      obtain ⟨⟨other, before', here, later⟩, vars'⟩ := fresh
      have prompt := (Expr.promptAll_vars before _).mp prompt.2
      have around : _ ∉ vars ++ before := fun h => (List.mem_append.mp h).elim vars' before'
      rw [eval, M.evalAll_vars, evalAll, ih here prompt.1 ordinary]
      simp only [eval, evalAll, bind_assoc, pure_bind]
      refine congrArg _ (funext fun c => ?_)
      rw [M.evalAll_update (c := c) later]
      simp only [bind_assoc, pure_bind, M.read_update ordinary, M.readAll_update ordinary,
        List.map_append, List.map_cons, settle_vars vars', settle_vars before', Operand.settle,
        if_neg (Ne.symm other), List.append_assoc]
  | call n h xs vars =>
      have same := @evalAll_vars _ _ _ _ M _ _ cells xs []
      simp only [List.append_nil, evalAll, pure_bind] at same
      have one : M.eval cells (.operation n (.varReference h) (xs.map .varReference) vars) =
          M.eval cells (.operation n (.varReference h) [] (vars ++ xs)) := by
        simp only [eval, same, evalAll, pure_bind, List.map_append, List.append_nil]
      rw [one]
      exact whole rfl (by simp)

section Places

variable {D : Name → Prop} {s d : ℕ} {e b e' : Expr} {k : Kind}

theorem evalTo_peels (h : Peels s d e k b e') (fresh : (Slot.layer k s d).name ∉ e.mentioned)
    (prompt : e.Prompt M.host) :
    M.evalTo cells e = M.layer cells k b >>= fun c =>
      M.evalTo (Function.update cells (Slot.layer k s d).name c) e' := by
  rw [evalTo, M.eval_peels h fresh prompt]
  simp only [evalTo, bind_assoc, pure_bind, M.read_update (Slot.layer k s d).ordinary]

theorem evalDeref_peels (h : Peels s d e k b e')
    (fresh : (Slot.layer k s d).name ∉ e.mentioned) (prompt : e.Prompt M.host) :
    M.eval cells e >>= M.deref cells = M.layer cells k b >>= fun c =>
      M.eval (Function.update cells (Slot.layer k s d).name c) e' >>=
        M.deref (Function.update cells (Slot.layer k s d).name c) := by
  rw [M.eval_peels h fresh prompt]
  simp only [bind_assoc, pure_bind, M.deref_update (Slot.layer k s d).ordinary]

theorem place_update {e : Expr} (fresh : x ∉ e.mentioned) :
    M.place cells e = M.place (Function.update cells x c) e >>= fun p =>
      pure (p.1.settle x c, p.2) := by
  have avoids : ∀ y ∈ e.mentioned, ¬ y = x := by
    rintro y hy rfl
    exact fresh hy
  rw [← bind_pure (M.place cells e)]
  refine Sim.eq (Sim.bind (M.place_off (off_self cells x c) avoids) ?_)
  rintro p _ ⟨rfl, spares⟩
  rw [settle_of_spares spares]
  exact sim_refl _

/-- A dereference is a place by itself, and so is the variable that it is bound to. -/
theorem place_dereference {cells : Cells V} (h : Peels s d (.dereference e) k b e') :
    M.place cells e' = M.eval cells e' >>= fun o => pure (o, []) := by
  cases h <;> rfl

theorem place_peels (h : Peels s d e k b e') (pointer : e.containsFieldpointerRef = some true)
    (fresh : (Slot.layer k s d).name ∉ e.mentioned) (prompt : e.Prompt M.host) :
    M.place cells e = M.layer cells k b >>= fun c =>
      M.place (Function.update cells (Slot.layer k s d).name c) e' >>= fun p =>
        pure (p.1.settle (Slot.layer k s d).name c, p.2) := by
  induction h with
  | @fieldIn e k b e' f h ih =>
      cases e with
      | dereference e =>
          have root : M.place cells (.dereference e) =
              M.eval cells (.dereference e) >>= fun o => pure (o, []) := rfl
          rw [place, root, M.eval_peels h fresh prompt]
          simp only [place, M.place_dereference h, bind_assoc, pure_bind]
      | fieldReference e g =>
          rw [place, ih pointer fresh prompt]
          simp only [place, bind_assoc, pure_bind]
      | fieldPointerReference e g =>
          rw [place, ih pointer fresh prompt]
          simp only [place, bind_assoc, pure_bind]
      | _ => simp [Expr.containsFieldpointerRef] at pointer
  | @pointer e k b e' f h ih =>
      have whole := @eval_peels _ _ _ _ M _ _ cells _ _ _ _ _ _ h fresh prompt
      rw [eval] at whole
      have place : M.place cells (.fieldPointerReference e f) =
          (do let o ← M.eval cells e; let c ← M.deref cells o; pure (.cell c)) >>= fun o =>
            pure (o, [f]) := by
        simp only [Machine.place, bind_assoc, pure_bind]
      rw [place, whole]
      simp only [Machine.place, M.place_dereference h, bind_assoc, pure_bind, List.nil_append]
  | _ => simp [Expr.containsFieldpointerRef] at pointer

omit [Inhabited V] in
theorem setOperand_update (gone : D x) (o : Operand V) (v : V) :
    Sim Eq (Off D) (M.setOperand cells (o.settle x c) v)
      (M.setOperand (Function.update cells x c) o v) := by
  have off : Off D cells (Function.update cells x c) := off_update gone cells c
  have written : ∀ h, Sim Eq (Off D) (M.write h v >>= fun _ => pure cells)
      (M.write h v >>= fun _ => pure (Function.update cells x c)) := fun h =>
    Sim.bind (sim_refl _) fun _ _ _ => sim_pure off
  cases o with
  | cell c' =>
      cases c' with
      | value w => exact sim_pure off
      | remote h => exact written h
  | var y =>
      by_cases same : y = x
      · subst same
        rw [Operand.settle, if_pos rfl]
        cases c with
        | value w =>
            simp only [setOperand, Function.update_self]
            exact sim_pure (off.trans (off_update gone _ _))
        | remote h =>
            simp only [setOperand, Function.update_self]
            exact written h
      · rw [Operand.settle, if_neg same]
        simp only [setOperand, Function.update_of_ne same]
        cases cells y with
        | value w => exact sim_pure (off.update y _)
        | remote h => exact written h

omit [Inhabited V] in
theorem assign_update (gone : D x) (hx : Ordinary x) (p : Operand V × List Name) (o : Operand V) :
    Sim Eq (Off D) (M.assign cells (p.1.settle x c, p.2) (o.settle x c))
      (M.assign (Function.update cells x c) p o) := by
  obtain ⟨root, path⟩ := p
  cases path with
  | nil =>
      simp only [assign, M.read_update hx]
      refine Sim.bind (sim_refl _) ?_
      rintro v _ rfl
      exact M.setOperand_update gone root v
  | cons f fs =>
      simp only [assign, M.read_update hx]
      refine Sim.bind (sim_refl _) ?_
      rintro struct _ rfl
      refine Sim.bind (sim_refl _) ?_
      rintro v _ rfl
      exact M.setOperand_update gone root _

end Places

end Machine

end MixT.Flatten
