import Mathlib.Data.List.Perm.Basic
import MixT.Flatten.Anorm

/-!
# The layers of an expression

Each round of the pass binds one layer of an expression, so the bindings that a
statement gets are counted by the layers of its expressions. The first stands at the
counters of the statement and each later one two deeper.
-/

namespace MixT.Flatten

/-- What binds a layer: a `let` or a remote binding. -/
inductive Kind
  | value
  | remote
  deriving DecidableEq, Repr

/-- A generated variable, for a layer or for a loop, with its counters. -/
inductive Slot
  | layer (k : Kind) (seqnum depth : ℕ)
  | loop (seqnum depth : ℕ)
  deriving DecidableEq, Repr

namespace Slot

def name : Slot → Name
  | layer .value seqnum depth => generateName seqnum depth
  | layer .remote seqnum depth => remoteName seqnum depth
  | loop seqnum depth => whileName seqnum depth

/-- The counters are still in range. -/
def InRange : Slot → Prop
  | layer _ seqnum depth | loop seqnum depth => seqnum ≤ charLimit ∧ depth ≤ charLimit

theorem ofNat_injective {m n : ℕ} (hm : m ≤ charLimit) (hn : n ≤ charLimit)
    (same : Char.ofNat m = Char.ofNat n) : m = n := by
  have value : ∀ {m : ℕ}, m ≤ charLimit → (Char.ofNat m).toNat = m := by
    intro m hm
    have valid : m.isValidChar := Or.inl (by unfold charLimit at hm; omega)
    rw [Char.ofNat, dif_pos valid]
    rfl
  rw [← value hm, same, value hn]

theorem name_injective {p q : Slot} (hp : p.InRange) (hq : q.InRange) (same : p.name = q.name) :
    p = q := by
  have counters : ∀ {s d s' d' : ℕ}, (s ≤ charLimit ∧ d ≤ charLimit) →
      (s' ≤ charLimit ∧ d' ≤ charLimit) → Char.ofNat s = Char.ofNat s' ∧ Char.ofNat d = Char.ofNat d' →
        s = s' ∧ d = d' := fun h h' same =>
    ⟨ofNat_injective h.1 h'.1 same.1, ofNat_injective h.2 h'.2 same.2⟩
  rcases p with ⟨k, s, d⟩ | ⟨s, d⟩ <;> rcases q with ⟨k', s', d'⟩ | ⟨s', d'⟩
  · cases k <;> cases k' <;>
      simp only [name, generateName, remoteName, List.cons.injEq, and_true, true_and,
        Char.reduceEq, false_and, reduceCtorEq] at same
    all_goals
      obtain ⟨rfl, rfl⟩ := counters hp hq same
      rfl
  · cases k <;>
      simp [name, generateName, remoteName, whileName] at same
  · cases k' <;>
      simp [name, generateName, remoteName, whileName] at same
  · simp only [name, whileName, List.cons.injEq, and_true, true_and] at same
    obtain ⟨rfl, rfl⟩ := counters hp hq same
    rfl

end Slot

/-- The statement that binds a layer. -/
def bindAs : Kind → Name → Expr → Stmt → Stmt
  | .value, x, b, st => .letIn x b st
  | .remote, x, b, st => .letRemote x b st

namespace Expr

mutual

/-- The layers of an expression, in the order in which they are bound. -/
def layers : Expr → List Kind
  | varReference _ => []
  | constant _ => [.value]
  | fieldReference e _ => e.layers ++ [.value]
  | fieldPointerReference e _ => e.layers ++ [.remote, .value]
  | dereference e => e.layers ++ [.remote]
  | binOp _ l r => l.layers ++ r.layers ++ [.value]
  | isValid e | endorse _ e | ensure _ e => e.layers ++ [.value]
  | operation _ h exprs _ => h.layers ++ layersAll exprs ++ [.value]

def layersAll : List Expr → List Kind
  | [] => []
  | e :: es => e.layers ++ layersAll es

end

/-- A `let` stops before the last layer of an expression, unless that is a dereference or a call
with arguments. -/
def bindsLast : Expr → Bool
  | dereference _ => true
  | operation _ _ (_ :: _) _ => true
  | _ => false

def isConstant : Expr → Bool
  | constant _ => true
  | _ => false

/-- A field of a constant. -/
def isConstantField : Expr → Bool
  | fieldReference e _ => e.isConstant
  | _ => false

/-- The layers that a `let` of the expression binds. -/
def letLayers (e : Expr) : List Kind :=
  if e.isConstantField then []
  else if e.bindsLast then e.layers
  else e.layers.dropLast

/-- The layers of the target of an assignment, up to the last dereference. -/
def targetLayers : Expr → List Kind
  | fieldReference (dereference e) _ => e.layers ++ [.remote]
  | fieldReference e _ => e.targetLayers
  | fieldPointerReference e _ => e.layers ++ [.remote]
  | _ => []

end Expr

/-- The innermost layer of an expression, bound at the counters, and the rest of the expression. -/
inductive Peels (seqnum depth : ℕ) : Expr → Kind → Expr → Expr → Prop
  | constant (i) : Peels seqnum depth (.constant i) .value (.constant i)
      (.varReference (generateName seqnum depth))
  | field (x f) : Peels seqnum depth (.fieldReference (.varReference x) f) .value
      (.fieldReference (.varReference x) f) (.varReference (generateName seqnum depth))
  | fieldIn {e k b e'} (f) : Peels seqnum depth e k b e' →
      Peels seqnum depth (.fieldReference e f) k b (.fieldReference e' f)
  | pointer {e k b e'} (f) : Peels seqnum depth (.dereference e) k b e' →
      Peels seqnum depth (.fieldPointerReference e f) k b (.fieldReference e' f)
  | dereference (x) : Peels seqnum depth (.dereference (.varReference x)) .remote (.varReference x)
      (.varReference (remoteName seqnum depth))
  | dereferenceIn {e k b e'} : Peels seqnum depth e k b e' →
      Peels seqnum depth (.dereference e) k b (.dereference e')
  | binOp (op x y) : Peels seqnum depth (.binOp op (.varReference x) (.varReference y)) .value
      (.binOp op (.varReference x) (.varReference y)) (.varReference (generateName seqnum depth))
  | binOpRight {r k b r'} (op x) : Peels seqnum depth r k b r' →
      Peels seqnum depth (.binOp op (.varReference x) r) k b (.binOp op (.varReference x) r')
  | binOpLeft {l k b l'} (op r) : Peels seqnum depth l k b l' →
      Peels seqnum depth (.binOp op l r) k b (.binOp op l' r)
  | isValid (x) : Peels seqnum depth (.isValid (.varReference x)) .value
      (.isValid (.varReference x)) (.varReference (generateName seqnum depth))
  | isValidIn {e k b e'} : Peels seqnum depth e k b e' →
      Peels seqnum depth (.isValid e) k b (.isValid e')
  | endorse (l x) : Peels seqnum depth (.endorse l (.varReference x)) .value
      (.endorse l (.varReference x)) (.varReference (generateName seqnum depth))
  | endorseIn {e k b e'} (l) : Peels seqnum depth e k b e' →
      Peels seqnum depth (.endorse l e) k b (.endorse l e')
  | ensure (l x) : Peels seqnum depth (.ensure l (.varReference x)) .value
      (.ensure l (.varReference x)) (.varReference (generateName seqnum depth))
  | ensureIn {e k b e'} (l) : Peels seqnum depth e k b e' →
      Peels seqnum depth (.ensure l e) k b (.ensure l e')
  | handle {h k b h'} (n exprs vars) : Peels seqnum depth h k b h' →
      Peels seqnum depth (.operation n h exprs vars) k b (.operation n h' exprs vars)
  | argument {e k b e'} (n h before exprs vars) : Peels seqnum depth e k b e' →
      Peels seqnum depth
        (.operation n (.varReference h) (before.map .varReference ++ e :: exprs) vars) k b
        (.operation n (.varReference h) (e' :: exprs) (vars ++ before))
  | call (n h xs vars) :
      Peels seqnum depth (.operation n (.varReference h) (xs.map .varReference) vars) .value
        (.operation n (.varReference h) [] (vars ++ xs))
        (.varReference (generateName seqnum depth))

section RemoveLayer

variable {seqnum depth : ℕ}

/-- The statement around a removed layer. -/
def Removes (seqnum depth : ℕ) (sub : Expr → Stmt) (e : Expr) (st : Stmt) : Prop :=
  ∃ k b e', Peels seqnum depth e k b e' ∧
    st = bindAs k (Slot.name (.layer k seqnum depth)) b (sub e')

theorem eq_varReference {e : Expr} (h : e.isVarReference = true) : ∃ x, e = .varReference x := by
  cases e <;> simp [Expr.isVarReference] at h
  exact ⟨_, rfl⟩

theorem removes_dereference {sub : Expr → Stmt} {e : Expr} {remove : (Expr → Stmt) → Option Stmt}
    (ih : ∀ sub st, remove sub = some st → Removes seqnum depth sub e st) {st : Stmt}
    (removed : removeDereference seqnum depth sub e remove = some st) :
    Removes seqnum depth sub (.dereference e) st := by
  cases hvar : e.isVarReference with
  | true =>
      obtain ⟨x, rfl⟩ := eq_varReference hvar
      simp only [removeDereference, Option.some.injEq] at removed
      exact ⟨_, _, _, .dereference x, removed.symm⟩
  | false =>
      have rest : remove (fun e => sub (.dereference e)) = some st := by
        cases e <;> first | exact removed | simp [Expr.isVarReference] at hvar
      obtain ⟨k, b, e', peels, rfl⟩ := ih _ _ rest
      exact ⟨k, b, _, .dereferenceIn peels, rfl⟩

/-- A constructor of one operand: with a variable it is the layer, else the operand's is. -/
theorem removes_unary {sub : Expr → Stmt} {f : Expr → Expr} {e : Expr} {st : Stmt}
    (whole : ∀ x, Peels seqnum depth (f (.varReference x)) .value (f (.varReference x))
      (.varReference (generateName seqnum depth)))
    (inner : ∀ {k b e'}, Peels seqnum depth e k b e' → Peels seqnum depth (f e) k b (f e'))
    (ih : ∀ sub st, removeLayer seqnum depth sub e = some st → Removes seqnum depth sub e st)
    (removed : (if e.isVarReference then bindLayer seqnum depth sub (f e)
      else removeLayer seqnum depth (fun e => sub (f e)) e) = some st) :
    Removes seqnum depth sub (f e) st := by
  split at removed
  next hvar =>
    obtain ⟨x, rfl⟩ := eq_varReference hvar
    exact ⟨_, _, _, whole x, (Option.some.inj removed).symm⟩
  next =>
    obtain ⟨k, b, e', peels, rfl⟩ := ih _ _ removed
    exact ⟨k, b, _, inner peels, rfl⟩

mutual

/-- A removed layer is the innermost one, bound before what is left. -/
theorem removes_of_removeLayer (sub : Expr → Stmt) : ∀ (e : Expr) {st : Stmt},
    removeLayer seqnum depth sub e = some st → Removes seqnum depth sub e st
  | .varReference _, _, removed => by simp [removeLayer] at removed
  | .constant i, _, removed => by
      simp only [removeLayer, bindLayer, Option.some.injEq] at removed
      exact ⟨_, _, _, .constant i, removed.symm⟩
  | .fieldReference e f, _, removed => by
      rw [removeLayer] at removed
      apply removes_unary (f := fun e => .fieldReference e f) (fun x => .field x f) (.fieldIn f) (fun sub _ => removes_of_removeLayer sub e)
      exact removed
  | .fieldPointerReference e f, _, removed => by
      rw [removeLayer] at removed
      obtain ⟨k, b, e', peels, rfl⟩ :=
        removes_dereference (fun sub _ => removes_of_removeLayer sub e) removed
      exact ⟨k, b, _, .pointer f peels, rfl⟩
  | .dereference e, _, removed => by
      rw [removeLayer] at removed
      exact removes_dereference (fun sub _ => removes_of_removeLayer sub e) removed
  | .binOp op l r, _, removed => by
      rw [removeLayer] at removed
      split at removed
      next hl =>
        obtain ⟨x, rfl⟩ := eq_varReference hl
        split at removed
        next hr =>
          obtain ⟨y, rfl⟩ := eq_varReference hr
          exact ⟨_, _, _, .binOp op x y, (Option.some.inj removed).symm⟩
        next =>
          obtain ⟨k, b, e', peels, rfl⟩ := removes_of_removeLayer _ r removed
          exact ⟨k, b, _, .binOpRight op x peels, rfl⟩
      next =>
        obtain ⟨k, b, e', peels, rfl⟩ := removes_of_removeLayer _ l removed
        exact ⟨k, b, _, .binOpLeft op r peels, rfl⟩
  | .isValid e, _, removed => by
      rw [removeLayer] at removed
      apply removes_unary .isValid .isValidIn (fun sub _ => removes_of_removeLayer sub e)
      exact removed
  | .endorse l e, _, removed => by
      rw [removeLayer] at removed
      apply removes_unary (.endorse l) (.endorseIn l) (fun sub _ => removes_of_removeLayer sub e)
      exact removed
  | .ensure l e, _, removed => by
      rw [removeLayer] at removed
      apply removes_unary (.ensure l) (.ensureIn l) (fun sub _ => removes_of_removeLayer sub e)
      exact removed
  | .operation n h exprs vars, st, removed => by
      rw [removeLayer] at removed
      split at removed
      next hvar =>
        obtain ⟨x, rfl⟩ := eq_varReference hvar
        simpa using removes_of_removeArgument sub n x [] exprs vars (by simpa using removed)
      next =>
        obtain ⟨k, b, e', peels, rfl⟩ := removes_of_removeLayer _ h removed
        exact ⟨k, b, _, .handle n exprs vars peels, rfl⟩

theorem removes_of_removeArgument (sub : Expr → Stmt) (n h : Name) (before : List Name) :
    ∀ (exprs : List Expr) (vars : List Name) {st : Stmt},
      removeArgument seqnum depth sub n (.varReference h) exprs (vars ++ before) = some st →
        Removes seqnum depth sub
          (.operation n (.varReference h) (before.map .varReference ++ exprs) vars) st
  | [], vars, _, removed => by
      rw [removeArgument] at removed
      simpa using ⟨_, _, _, Peels.call n h before vars, (Option.some.inj removed).symm⟩
  | e :: exprs, vars, st, removed => by
      cases hvar : e.isVarReference with
      | true =>
          obtain ⟨x, rfl⟩ := eq_varReference hvar
          rw [removeArgument, List.append_assoc] at removed
          simpa using removes_of_removeArgument sub n h (before ++ [x]) exprs _ removed
      | false =>
          have rest : removeLayer seqnum depth
              (fun e => sub (.operation n (.varReference h) (e :: exprs) (vars ++ before))) e =
                some st := by
            cases e <;> first | exact removed | simp [Expr.isVarReference] at hvar
          obtain ⟨k, b, e', peels, rfl⟩ := removes_of_removeLayer _ e rest
          exact ⟨k, b, _, .argument n h before exprs vars peels, rfl⟩

end

end RemoveLayer

namespace Expr

@[simp] theorem layersAll_vars (xs : List Name) (exprs : List Expr) :
    layersAll (xs.map varReference ++ exprs) = layersAll exprs := by
  induction xs with
  | nil => rfl
  | cons x xs ih => simp [layersAll, layers, ih]

theorem layers_ne_nil {e : Expr} (h : e.isVarReference = false) : e.layers ≠ [] := by
  cases e <;> simp [layers, isVarReference] at *

theorem isFlat_of_isConstantField {e : Expr} (h : e.isConstantField = true) : e.isFlat = true := by
  cases e with
  | fieldReference e f => cases e <;> simp [isConstantField, isConstant, isFlat] at *
  | _ => cases h

theorem letLayers_of_isFlat {e : Expr} (h : e.isFlat = true) : e.letLayers = [] := by
  unfold isFlat at h
  split at h <;> first | rfl | cases h

end Expr

namespace Peels

variable {seqnum depth : ℕ} {e b e' : Expr} {k : Kind}

/-- One layer less. -/
theorem layers_eq (h : Peels seqnum depth e k b e') : e.layers = k :: e'.layers := by
  induction h with
  | @pointer e k b e' f h ih =>
      calc
        (Expr.fieldPointerReference e f).layers = (Expr.dereference e).layers ++ [.value] := by
          simp [Expr.layers]
        _ = k :: (Expr.fieldReference e' f).layers := by
          rw [ih, List.cons_append, Expr.layers]
  | argument n h before exprs vars h' ih => simp [Expr.layers, Expr.layersAll, ih]
  | call n h xs vars =>
      have none : Expr.layersAll (xs.map .varReference) = [] := by
        have vars := Expr.layersAll_vars xs []
        rwa [List.append_nil] at vars
      simp [Expr.layers, none]
  | _ => simp_all [Expr.layers]

/-- What is bound is as it shall be. -/
theorem bound (h : Peels seqnum depth e k b e') :
    (k = .remote ∧ b.isVarReference = true) ∨
      (k = .value ∧ b.isFlat = true ∧ b.isConstantField = false) := by
  induction h <;> first | assumption | simp [Expr.isVarReference, Expr.isFlat, Expr.isConstantField,
    Expr.isConstant]

theorem not_constant (h : Peels seqnum depth e k b e') : e'.isConstant = false := by
  cases h <;> rfl

/-- What is left is a variable, or an expression of the same form. -/
theorem shape (h : Peels seqnum depth e k b e') :
    e'.isVarReference = true ∨
      (e'.isVarReference = false ∧ e'.bindsLast = e.bindsLast ∧ e'.isConstantField = false) := by
  cases h with
  | fieldIn f h => exact Or.inr ⟨rfl, rfl, h.not_constant⟩
  | pointer f h => exact Or.inr ⟨rfl, rfl, h.not_constant⟩
  | argument n h before exprs vars h' =>
      refine Or.inr ⟨rfl, ?_, rfl⟩
      cases before <;> rfl
  | handle n exprs vars h =>
      refine Or.inr ⟨rfl, ?_, rfl⟩
      cases exprs <;> rfl
  | _ => first | exact Or.inl rfl | exact Or.inr ⟨rfl, rfl, rfl⟩

/-- The last layer is bound by a `let` only where `bindsLast` says so. -/
theorem bindsLast_of_var (h : Peels seqnum depth e k b e') (last : e'.isVarReference = true)
    (deep : e.isFlat = false) : e.bindsLast = true := by
  cases h with
  | call n h xs vars =>
      cases xs with
      | nil => cases deep
      | cons x xs => rfl
  | dereference => rfl
  | constant | field | binOp | isValid | endorse | ensure => simp [Expr.isFlat] at deep
  | _ => simp [Expr.isVarReference] at last

theorem letLayers_eq (h : Peels seqnum depth e k b e') (deep : e.isFlat = false) :
    e.letLayers = k :: e'.letLayers := by
  have noField : e.isConstantField = false := by
    cases field : e.isConstantField with
    | false => rfl
    | true => rw [Expr.isFlat_of_isConstantField field] at deep; cases deep
  rcases h.shape with var | ⟨notVar, last, noField'⟩
  · obtain ⟨x, rfl⟩ := eq_varReference var
    rw [Expr.letLayers, noField, if_neg Bool.false_ne_true, if_pos (h.bindsLast_of_var rfl deep),
      h.layers_eq]
    rfl
  · cases hlast : e.bindsLast with
    | true => simp [Expr.letLayers, noField, noField', last, hlast, h.layers_eq]
    | false =>
        simp [Expr.letLayers, noField, noField', last, hlast, h.layers_eq,
          List.dropLast_cons_of_ne_nil (Expr.layers_ne_nil notVar)]

/-- A layer of a target is one of the dereferences in it or of what these dereference. -/
theorem targetLayers_eq (h : Peels seqnum depth e k b e')
    (pointer : e.containsFieldpointerRef = some true) :
    e.targetLayers = k :: e'.targetLayers := by
  induction h with
  | @fieldIn e k b e' f h ih =>
      cases h with
      | dereference x => rfl
      | dereferenceIn h => simp [Expr.targetLayers, h.layers_eq]
      | field x g => simp [Expr.containsFieldpointerRef] at pointer
      | fieldIn g h => exact ih pointer
      | pointer g h => exact ih pointer
      | _ => simp [Expr.containsFieldpointerRef] at pointer
  | pointer f h =>
      cases h with
      | dereference x => rfl
      | dereferenceIn h => simp [Expr.targetLayers, h.layers_eq]
  | _ => simp [Expr.containsFieldpointerRef] at pointer

end Peels

end MixT.Flatten
