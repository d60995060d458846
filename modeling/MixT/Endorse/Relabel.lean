import MixT.Inference.Accepted
import MixT.Library.Worklist

/-! # Endorsement relabelling

Before the splitter runs, the variables that endorsements depend on are collected with
a worklist of variables, and their labels become pre-endorse labels. The worklist
starts with two mismatches, which stand for no variable. -/

namespace MixT.Endorse

open MixT.Library.Worklist

/-! ## Pre-endorse labels -/

/-- A label, or `Label<PreEndorse<l>>`. -/
inductive PreLabel (L : Type*) where
  | plain (l : L)
  | preEndorse (l : L)
  deriving DecidableEq, Repr

section Labels

variable {L : Type*} [LinearOrder L] [BoundedOrder L]

namespace PreLabel

/-- `is_pre_endorsed`. -/
def isPreEndorsed : PreLabel L → Bool
  | .plain _ => false
  | .preEndorse _ => true

/-- `PreEndorse_notop`: the label top stays as it is. -/
def preEndorseNotop : PreLabel L → PreLabel L
  | .plain l => if l = ⊤ then .plain l else .preEndorse l
  | .preEndorse l => .preEndorse l

def flowsTo : PreLabel L → PreLabel L → Bool
  | .plain a, .plain b => b ≤ a
  | .preEndorse a, .preEndorse b => b ≤ a
  | .preEndorse _, .plain b => b ≠ ⊤
  | .plain a, .preEndorse _ => a = ⊤

/-- `labels::min_of` of two labels. -/
def minOf (a b : PreLabel L) : PreLabel L := if flowsTo a b then b else a

/-- `resolved_label_min`. -/
def resolvedMin (a b : PreLabel L) : PreLabel L :=
  if a = .plain ⊥ ∨ b = .plain ⊥ then .plain ⊥ else minOf a b

theorem preEndorseNotop_plain {l : PreLabel L}
    (h : (preEndorseNotop l).isPreEndorsed = false) : preEndorseNotop l = l := by
  cases l with
  | plain l =>
      simp only [preEndorseNotop] at h ⊢
      split
      · rfl
      · rename_i below
        rw [if_neg below] at h
        cases h
  | preEndorse l => cases h

end PreLabel

end Labels

/-- An element of the worklist: a variable, or `mutils::mismatch`. -/
abbrev Elem := Option VarName

variable {L Λ : Type*}

/-! ## Does a statement contain an endorsement or a current element? -/

section Contains

variable (current : List Elem)

/-- The flag of a variable reference does not depend on the flag it is given. -/
def containsVar (_found : Bool) (x : VarName) : Bool := some x ∈ current

/-- `Fold_all`: the first argument is folded last. -/
def foldAll {A : Type*} (f : Bool → A → Bool) (found : Bool) (args : List A) : Bool :=
  args.foldr (fun a found => f found a) found

def containsVars (found : Bool) (args : List (VarRef Λ L)) : Bool :=
  foldAll (fun found x => containsVar current found x.var) found args

/-- `contains_endorsement` of an expression. -/
def containsExpr (found : Bool) (e : Expression Λ L) : Bool :=
  match e.form with
  | .endorse _ _ => true
  | .varReference x => containsVar current found x
  | .fieldReference struct _ => found || containsVar current found struct.var
  | .constant _ => found || found
  | .binOp _ l r => found || containsVar current (containsVar current found l.var) r.var
  | .generateTombstone => found || found
  | .isValid h => found || containsVar current found h.var
  | .operation _ h args => found || containsVars current found (h :: args)

def containsTarget (found : Bool) : Target Λ L → Bool
  | .var x => containsVar current found x.var
  | .field _ _ struct _ => found || containsVar current found struct.var

/-- `contains_endorsement` of a statement; a binding adds the flag of its expression. -/
def containsEndorsement (found : Bool) : Statement Λ L → Bool
  | .letIn _ b body =>
      found || containsEndorsement (found || containsExpr current found b.expr) body
  | .letRemote _ b body =>
      found || containsEndorsement (found || containsVar current found b.expr.var) body
  | .operation _ _ h args => found || containsVars current found (h :: args)
  | .assignment _ target e =>
      found || containsVar current (containsTarget current found target) e.var
  | .ret _ e => found || containsVar current found e.var
  | .accompanyWrite _ target => found || containsTarget current found target
  | .writeTombstone _ e => found || containsVar current found e.var
  | .ifThen _ c t e =>
      found || containsEndorsement (containsEndorsement (containsVar current found c.var) t) e
  | .whileLoop _ _ c body => found || containsEndorsement (containsVar current found c.var) body
  | .nil _ => found
  | .cons _ first rest => found || containsEndorsement (containsEndorsement found rest) first

end Contains

/-! ## Collecting -/

/-- `Combine_all`: the first list is combined last. -/
def combineAll (default : WorkList Elem) (args : List (WorkList Elem)) : WorkList Elem :=
  args.foldr (fun a acc => acc.combine a) default

/-- `add_all_varrefs` of an expression. -/
def addAllVarrefs (wl : WorkList Elem) (e : Expression Λ L) : WorkList Elem :=
  match e.form with
  | .varReference x => wl.append (some x)
  | .fieldReference struct _ => wl.append (some struct.var)
  | .constant _ => wl
  | .binOp _ l r => (wl.append (some l.var)).combine (wl.append (some r.var))
  | .generateTombstone => wl
  | .isValid h => wl.append (some h.var)
  | .endorse _ x => wl.append (some x.var)
  | .operation _ h args => combineAll wl ((h :: args).map fun x => wl.append (some x.var))

/-- `collect_pre_endorse` of an expression. -/
def collectExpr (wl : WorkList Elem) (e : Expression Λ L) : WorkList Elem :=
  match e.form with
  | .endorse _ x => wl.append (some x.var)
  | .binOp _ _ _ => wl.combine wl
  | .operation _ h args => combineAll wl ((h :: args).map fun _ => wl)
  | _ => wl

/-- `collect_pre_endorse` of the binding of a let. -/
def collectBinding (wl : WorkList Elem) (b : Binding Λ L (Expression Λ L)) : WorkList Elem :=
  if some b.var ∈ wl.current then addAllVarrefs wl b.expr else collectExpr wl b.expr

/-- `collect_pre_endorse` of the binding of a remote let. -/
def collectRemote (wl : WorkList Elem) (b : Binding Λ L (VarRef Λ L)) : WorkList Elem :=
  if some b.var ∈ wl.current then wl.append (some b.expr.var) else wl

/-- `collect_pre_endorse`; `none` where the program does not compile. An if or a while has
its own case where its label is that of its condition. There the condition is to be
appended, but what is returned is the function that appends it, not its result. -/
def collectPreEndorse [DecidableEq Λ] (wl : WorkList Elem) :
    Statement Λ L → Option (WorkList Elem)
  | .letIn _ b body => do
      let inBody ← collectPreEndorse wl body
      pure ((collectBinding wl b).combine inBody)
  | .letRemote _ b body => do
      let inBody ← collectPreEndorse wl body
      pure ((collectRemote wl b).combine inBody)
  | .operation _ _ h args => pure (combineAll wl ((h :: args).map fun _ => wl))
  | .assignment _ _ _ => pure (wl.combine wl)
  | .ret _ _ => pure wl
  | .accompanyWrite _ _ => pure wl
  | .writeTombstone _ _ => pure wl
  | .ifThen l c t e => do
      let inThen ← collectPreEndorse wl t
      let inElse ← collectPreEndorse wl e
      if l = c.label then
        if containsEndorsement wl.current false (.ifThen l c t e) then none
        else pure (inThen.combine inElse)
      else pure ((wl.combine inThen).combine inElse)
  | .whileLoop l _ c body => do
      let inBody ← collectPreEndorse wl body
      if l = c.label then
        if containsEndorsement wl.current false body then none else pure inBody
      else pure (wl.combine inBody)
  | .nil _ => pure wl
  | .cons _ first rest => do
      let inFirst ← collectPreEndorse wl first
      let inRest ← collectPreEndorse wl rest
      pure (inRest.combine inFirst)

/-! ## Relabelling -/

section Relabel

variable [LinearOrder L] [BoundedOrder L] (endorsed : List Elem)

open PreLabel

def relabelVar (x : VarRef (PreLabel L) L) : VarRef (PreLabel L) L :=
  if some x.var ∈ endorsed then { x with label := preEndorseNotop x.label } else x

/-- `_endorse_relabel` of an operation: it is returned as it was. -/
def relabelOperation (h : VarRef (PreLabel L) L) (args : List (VarRef (PreLabel L) L)) : Bool :=
  (h :: args).all fun x => !(relabelVar endorsed x).label.isPreEndorsed

/-- `endorse_relabel` of an expression; `none` where a static assertion fails. -/
def relabelExpr (e : Expression (PreLabel L) L) : Option (Expression (PreLabel L) L) :=
  match e.form with
  | .varReference x =>
      let x := relabelVar endorsed ⟨e.label, e.yield, x⟩
      pure ⟨x.label, x.yield, .varReference x.var⟩
  | .fieldReference struct f =>
      let struct := relabelVar endorsed struct
      pure ⟨struct.label, e.yield, .fieldReference struct f⟩
  | .constant _ => pure e
  | .binOp op l r =>
      let l := relabelVar endorsed l
      let r := relabelVar endorsed r
      pure ⟨resolvedMin l.label r.label, e.yield, .binOp op l r⟩
  | .generateTombstone => pure e
  | .isValid h => do
      let handleLabel ← h.yield.label
      let h := relabelVar endorsed h
      pure ⟨resolvedMin h.label (.plain handleLabel), e.yield, .isValid h⟩
  | .endorse _ x =>
      let x := relabelVar endorsed x
      pure ⟨x.label, x.yield, .varReference x.var⟩
  | .operation _ h args => if relabelOperation endorsed h args then pure e else none

def relabelTarget : Target (PreLabel L) L → Target (PreLabel L) L
  | .var x => .var (relabelVar endorsed x)
  | .field _ yield struct f =>
      let struct := relabelVar endorsed struct
      .field struct.label yield struct f

/-- The label of a binding, by its variable. -/
def relabelBound (x : VarName) (l : PreLabel L) : PreLabel L :=
  if some x ∈ endorsed then preEndorseNotop l else l

/-- `endorse_relabel`; `none` where a static assertion fails. An assignment is returned as it
was, and refused only if both sides are pre-endorsed. -/
def endorseRelabel : Statement (PreLabel L) L → Option (Statement (PreLabel L) L)
  | .letIn _ b body => do
      let expr ← relabelExpr endorsed b.expr
      let body ← endorseRelabel body
      let l := relabelBound endorsed b.var b.label
      pure (.letIn l ⟨l, b.yield, b.var, expr⟩ body)
  | .letRemote _ b body => do
      let body ← endorseRelabel body
      let l := relabelBound endorsed b.var b.label
      pure (.letRemote l ⟨l, b.yield, b.var, relabelVar endorsed b.expr⟩ body)
  | .operation l name h args =>
      if relabelOperation endorsed h args then pure (.operation l name h args) else none
  | .assignment l target e =>
      if !(relabelTarget endorsed target).label.isPreEndorsed ||
          !(relabelVar endorsed e).label.isPreEndorsed then
        pure (.assignment l target e)
      else none
  | .ret _ e => pure (.ret (.plain ⊥) (relabelVar endorsed e))
  | .accompanyWrite _ target =>
      let target := relabelTarget endorsed target
      pure (.accompanyWrite target.label target)
  | .writeTombstone _ e =>
      let e := relabelVar endorsed e
      pure (.writeTombstone e.label e)
  | .ifThen _ c t e => do
      let t ← endorseRelabel t
      let e ← endorseRelabel e
      let c := relabelVar endorsed c
      pure (.ifThen c.label c t e)
  | .whileLoop _ _ c body => do
      let body ← endorseRelabel body
      let c := relabelVar endorsed c
      pure (.whileLoop c.label .unnamed c body)
  | .nil l => pure (.nil l)
  | .cons l first rest => do
      let first ← endorseRelabel first
      let rest ← endorseRelabel rest
      pure (.cons l first rest)

end Relabel

/-- Rounds of `do_pre_endorse`: each drops the front element and collects with the rest. -/
def preEndorseRounds [DecidableEq Λ] (s : Statement Λ L) :
    ℕ → WorkList Elem → Option (WorkList Elem) :=
  rounds fun wl => collectPreEndorse wl s

end MixT.Endorse
