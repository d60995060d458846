import MixT.Syntax.Ast

/-! # The trees of phases

A phase is a tree without labels on its expressions. Each statement keeps its place
in the source tree, which the source does without: it identifies the statement across
phases and nothing here computes with it. -/

namespace MixT.Split

/-- A place in the source tree: which child to take, the last choice first. -/
abbrev Origin := List Nat

/-- `AST<label>::Statement`. A sequence is a chain of `cons` that ends in `nil`. -/
inductive Stmt (L : Type*)
  | letIn (o : Origin) (binding : Binding L L (Expression Unit L)) (body : Stmt L)
  | letRemote (o : Origin) (binding : Binding L L (VarRef Unit L)) (body : Stmt L)
  | operation (o : Origin) (name : OperName) (h : VarRef Unit L) (args : List (VarRef Unit L))
  | assignment (o : Origin) (target : Target Unit L) (e : VarRef Unit L)
  | ret (o : Origin) (e : VarRef Unit L)
  | accompanyWrite (o : Origin) (target : Target Unit L)
  | writeTombstone (o : Origin) (e : VarRef Unit L)
  | incrementOccurance (o : Origin) (x : VarName)
  | incrementRemoteOccurance (o : Origin) (x : VarName)
  | refreshRemoteOccurance (o : Origin) (h : VarRef Unit L)
  | ifThen (o : Origin) (condition : VarRef Unit L) (thenBranch elseBranch : Stmt L)
  | whileLoop (o : Origin) (name : VarName) (condition : VarRef Unit L) (body : Stmt L)
  | forEach (o : Origin) (name : VarName) (body : Stmt L)
  | nil
  | cons (first rest : Stmt L)
  deriving DecidableEq, Repr

namespace Stmt

variable {L : Type*}

/-- `Sequence::append`. -/
def append : Stmt L → Stmt L → Stmt L
  | .nil, s => s
  | .cons first rest, s => .cons first (append rest s)
  | first, s => .cons first s

/-- `collapse`: nested sequences become one. Other statements keep their bodies. -/
def collapse : Stmt L → Stmt L
  | .nil => .nil
  | .cons first rest => (collapse first).append (collapse rest)
  | s => s

/-- `count_sequence`: the statements of nested sequences. -/
def countSequence : Stmt L → Nat
  | .nil => 0
  | .cons first rest => countSequence first + countSequence rest
  | _ => 1

/-- `is_empty_sequence`. -/
def isEmptySequence (s : Stmt L) : Bool := s.countSequence = 0

/-- The places of the statements that a phase does itself, in order. -/
def kept : Stmt L → List Origin
  | .letIn o _ body => o :: kept body
  | .letRemote o _ body => o :: kept body
  | .operation o _ _ _ => [o]
  | .assignment o _ _ => [o]
  | .ret o _ => [o]
  | .accompanyWrite o _ => [o]
  | .writeTombstone o _ => [o]
  | .ifThen _ _ t e => kept t ++ kept e
  | .whileLoop _ _ _ body => kept body
  | .forEach _ _ body => kept body
  | .cons first rest => kept first ++ kept rest
  | _ => []

/-- The handles that a phase refreshes. -/
def refreshed : Stmt L → List (VarRef Unit L)
  | .refreshRemoteOccurance _ h => [h]
  | .letIn _ _ body => refreshed body
  | .letRemote _ _ body => refreshed body
  | .ifThen _ _ t e => refreshed t ++ refreshed e
  | .whileLoop _ _ _ body => refreshed body
  | .forEach _ _ body => refreshed body
  | .cons first rest => refreshed first ++ refreshed rest
  | _ => []

@[simp] theorem kept_append (s t : Stmt L) : (s.append t).kept = s.kept ++ t.kept := by
  induction s with
  | cons first rest _ ih => simp [append, kept, ih]
  | _ => simp [append, kept]

@[simp] theorem kept_collapse (s : Stmt L) : s.collapse.kept = s.kept := by
  induction s with
  | cons first rest ihf ihr => simp [collapse, kept, ihf, ihr]
  | _ => rfl

@[simp] theorem refreshed_append (s t : Stmt L) :
    (s.append t).refreshed = s.refreshed ++ t.refreshed := by
  induction s with
  | cons first rest _ ih => simp [append, refreshed, ih]
  | _ => simp [append, refreshed]

@[simp] theorem refreshed_collapse (s : Stmt L) : s.collapse.refreshed = s.refreshed := by
  induction s with
  | cons first rest ihf ihr => simp [collapse, refreshed, ihf, ihr]
  | _ => rfl

theorem kept_of_empty {s : Stmt L} (h : s.isEmptySequence = true) : s.kept = [] := by
  induction s with
  | nil => rfl
  | cons first rest ihf ihr =>
      simp only [isEmptySequence, countSequence, Nat.add_eq_zero_iff, decide_eq_true_eq] at h ihf ihr
      simp [kept, ihf h.1, ihr h.2]
  | _ => simp [isEmptySequence, countSequence] at h

end Stmt

end MixT.Split
