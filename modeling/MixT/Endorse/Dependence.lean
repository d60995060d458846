import MixT.Endorse.Relabel

/-! # What endorsements depend on

The variables that an endorsed value is computed from are closed under the
expressions that members are bound to, assignments to members, and conditions of
ifs and whiles with an endorsement or a member inside. Collecting follows only the
bindings, and fails where it meets such an if or while that has its condition's label. -/

namespace MixT.Endorse

open MixT.Library.Worklist

variable {L Λ : Type*}

/-! ## The parts of a statement -/

/-- The variable references of an expression, with their labels. -/
def operands (e : Expression Λ L) : List (VarRef Λ L) :=
  match e.form with
  | .varReference x => [⟨e.label, e.yield, x⟩]
  | .fieldReference struct _ => [struct]
  | .constant _ => []
  | .binOp _ l r => [l, r]
  | .generateTombstone => []
  | .isValid h => [h]
  | .endorse _ x => [x]
  | .operation _ h args => h :: args

/-- The variables of an expression. -/
def references (e : Expression Λ L) : List VarName := (operands e).map VarRef.var

/-- The variable that an expression endorses. -/
def endorsedBy (e : Expression Λ L) : List VarName :=
  match e.form with
  | .endorse _ x => [x.var]
  | _ => []

/-- The variables that a statement endorses. -/
def endorsed : Statement Λ L → List VarName
  | .letIn _ b body => endorsedBy b.expr ++ endorsed body
  | .letRemote _ _ body => endorsed body
  | .ifThen _ _ t e => endorsed t ++ endorsed e
  | .whileLoop _ _ _ body => endorsed body
  | .cons _ first rest => endorsed first ++ endorsed rest
  | _ => []

/-- The bindings of a statement: the variable, and those of its expression. -/
def bindings : Statement Λ L → List (VarName × List VarName)
  | .letIn _ b body => (b.var, references b.expr) :: bindings body
  | .letRemote _ b body => (b.var, [b.expr.var]) :: bindings body
  | .ifThen _ _ t e => bindings t ++ bindings e
  | .whileLoop _ _ _ body => bindings body
  | .cons _ first rest => bindings first ++ bindings rest
  | _ => []

def assignments : Statement Λ L → List (Target Λ L × VarRef Λ L)
  | .letIn _ _ body => assignments body
  | .letRemote _ _ body => assignments body
  | .assignment _ target e => [(target, e)]
  | .ifThen _ _ t e => assignments t ++ assignments e
  | .whileLoop _ _ _ body => assignments body
  | .cons _ first rest => assignments first ++ assignments rest
  | _ => []

/-- What a statement can have inside: an endorsement, or a variable. -/
inductive Sight where
  | endorsement
  | mention (x : VarName)
  deriving DecidableEq, Repr

/-- Everything a statement has inside, its declarations included. -/
def contents : Statement Λ L → List Sight
  | .letIn _ b body =>
      .mention b.var :: ((endorsedBy b.expr).map (fun _ => .endorsement) ++
        (references b.expr).map .mention ++ contents body)
  | .letRemote _ b body => .mention b.var :: .mention b.expr.var :: contents body
  | .operation _ _ h args => (h :: args).map fun x => .mention x.var
  | .assignment _ target e => [.mention target.baseVar, .mention e.var]
  | .ret _ e => [.mention e.var]
  | .accompanyWrite _ target => [.mention target.baseVar]
  | .writeTombstone _ e => [.mention e.var]
  | .ifThen _ c t e => .mention c.var :: (contents t ++ contents e)
  | .whileLoop _ _ c body => .mention c.var :: contents body
  | .nil _ => []
  | .cons _ first rest => contents first ++ contents rest

/-- What the scan for endorsements sees of an expression: of several operands only the one
it folds last, the right one or the handle. -/
def seenInExpr (e : Expression Λ L) : List Sight :=
  match e.form with
  | .varReference x => [.mention x]
  | .fieldReference struct _ => [.mention struct.var]
  | .constant _ => []
  | .binOp _ _ r => [.mention r.var]
  | .generateTombstone => []
  | .isValid h => [.mention h.var]
  | .endorse _ _ => [.endorsement]
  | .operation _ h _ => [.mention h.var]

/-- What the scan sees of a statement: of an assignment only its right side. -/
def seen : Statement Λ L → List Sight
  | .letIn _ b body => seenInExpr b.expr ++ seen body
  | .letRemote _ b body => .mention b.expr.var :: seen body
  | .operation _ _ h _ => [.mention h.var]
  | .assignment _ _ e => [.mention e.var]
  | .ret _ e => [.mention e.var]
  | .accompanyWrite _ target => [.mention target.baseVar]
  | .writeTombstone _ e => [.mention e.var]
  | .ifThen _ c t e => .mention c.var :: (seen t ++ seen e)
  | .whileLoop _ _ c body => .mention c.var :: seen body
  | .nil _ => []
  | .cons _ first rest => seen first ++ seen rest

/-- An if or a while: whether its label is that of its condition, the condition, what its
branches or its body have inside, and what the scan made for it sees. -/
structure Guard where
  matched : Bool
  condition : VarName
  inside : List Sight
  scanned : List Sight
  deriving DecidableEq, Repr

def guards [DecidableEq Λ] : Statement Λ L → List Guard
  | .letIn _ _ body => guards body
  | .letRemote _ _ body => guards body
  | .ifThen l c t e =>
      ⟨l = c.label, c.var, contents t ++ contents e, seen (.ifThen l c t e)⟩ ::
        (guards t ++ guards e)
  | .whileLoop l _ c body => ⟨l = c.label, c.var, contents body, seen body⟩ :: guards body
  | .cons _ first rest => guards first ++ guards rest
  | _ => []

/-! ## What the pass must find -/

/-- An endorsement or a member of the set is among these. -/
def Within (P : VarName → Prop) (inside : List Sight) : Prop :=
  .endorsement ∈ inside ∨ ∃ x, .mention x ∈ inside ∧ P x

/-- The variables that some endorsed variable is computed from. -/
inductive Depends [DecidableEq Λ] (s : Statement Λ L) : VarName → Prop
  | endorsed {x : VarName} : x ∈ endorsed s → Depends s x
  | binding {x y : VarName} {refs : List VarName} :
      (x, refs) ∈ bindings s → Depends s x → y ∈ refs → Depends s y
  | assignment {target : Target Λ L} {e : VarRef Λ L} :
      (target, e) ∈ assignments s → Depends s target.baseVar → Depends s e.var
  | endorsing {g : Guard} : g ∈ guards s → .endorsement ∈ g.inside → Depends s g.condition
  | guard {g : Guard} {x : VarName} :
      g ∈ guards s → .mention x ∈ g.inside → Depends s x → Depends s g.condition

/-- The variables that some endorsed variable is bound to, through bindings only. -/
inductive BoundTo (s : Statement Λ L) : VarName → Prop
  | endorsed {x : VarName} : x ∈ endorsed s → BoundTo s x
  | binding {x y : VarName} {refs : List VarName} :
      (x, refs) ∈ bindings s → BoundTo s x → y ∈ refs → BoundTo s y

theorem BoundTo.depends [DecidableEq Λ] {s : Statement Λ L} {x : VarName} (h : BoundTo s x) :
    Depends s x := by
  induction h with
  | endorsed mem => exact Depends.endorsed mem
  | binding mem _ ref ih => exact Depends.binding mem ih ref

/-- Bindings lead to all that endorsements depend on exactly when the other rules add
nothing. -/
theorem boundTo_iff_depends [DecidableEq Λ] {s : Statement Λ L} :
    (∀ x, BoundTo s x ↔ Depends s x) ↔
      (∀ a ∈ assignments s, BoundTo s a.1.baseVar → BoundTo s a.2.var) ∧
        ∀ g ∈ guards s, Within (BoundTo s) g.inside → BoundTo s g.condition := by
  constructor
  · intro same
    constructor
    · intro a mem bound
      exact (same _).mpr (Depends.assignment mem bound.depends)
    · rintro g mem (endorsement | ⟨x, inside, bound⟩)
      · exact (same _).mpr (Depends.endorsing mem endorsement)
      · exact (same _).mpr (Depends.guard mem inside bound.depends)
  · rintro ⟨assigned, guarded⟩ x
    refine ⟨BoundTo.depends, fun depends => ?_⟩
    induction depends with
    | endorsed mem => exact BoundTo.endorsed mem
    | binding mem _ ref ih => exact BoundTo.binding mem ih ref
    | assignment mem _ ih => exact assigned _ mem ih
    | endorsing mem endorsement => exact guarded _ mem (Or.inl endorsement)
    | guard mem inside _ ih => exact guarded _ mem (Or.inr ⟨_, inside, ih⟩)

/-! ## What a pass finds -/

/-- The endorsed variables, and those of the bindings of current variables. -/
def FoundBy (s : Statement Λ L) (current : List Elem) (e : Elem) : Prop :=
  (∃ v ∈ endorsed s, e = some v) ∨
    ∃ b ∈ bindings s, some b.1 ∈ current ∧ ∃ v ∈ b.2, e = some v

/-- The scan finds one of these, with the given current elements. -/
def Spots (current : List Elem) (sights : List Sight) : Prop :=
  Within (fun x => some x ∈ current) sights

/-- An if or a while with its own case in the pass spots something. -/
def Stuck [DecidableEq Λ] (s : Statement Λ L) (current : List Elem) : Prop :=
  ∃ g ∈ guards s, g.matched = true ∧ Spots current g.scanned

variable {current : List Elem}

theorem spots_append {l r : List Sight} :
    Spots current (l ++ r) ↔ Spots current l ∨ Spots current r := by
  simp only [Spots, Within, List.mem_append]
  constructor
  · rintro ((h | h) | ⟨x, (h | h), hx⟩)
    · exact Or.inl (Or.inl h)
    · exact Or.inr (Or.inl h)
    · exact Or.inl (Or.inr ⟨x, h, hx⟩)
    · exact Or.inr (Or.inr ⟨x, h, hx⟩)
  · rintro ((h | ⟨x, h, hx⟩) | (h | ⟨x, h, hx⟩))
    · exact Or.inl (Or.inl h)
    · exact Or.inr ⟨x, Or.inl h, hx⟩
    · exact Or.inl (Or.inr h)
    · exact Or.inr ⟨x, Or.inr h, hx⟩

@[simp] theorem spots_nil : ¬ Spots current [] := by simp [Spots, Within]

@[simp] theorem spots_mention {x : VarName} :
    Spots current [.mention x] ↔ some x ∈ current := by
  simp [Spots, Within]

theorem spots_cons {x : VarName} {l : List Sight} :
    Spots current (.mention x :: l) ↔ some x ∈ current ∨ Spots current l := by
  rw [← List.singleton_append, spots_append, spots_mention]

@[simp] theorem spots_endorsement : Spots current [.endorsement] := Or.inl (by simp)

/-- Of several variables, the flag is that of the one folded last, the first. -/
theorem containsVars_cons (found : Bool) (h : VarRef Λ L) (args : List (VarRef Λ L)) :
    containsVars current found (h :: args) = decide (some h.var ∈ current) := rfl

theorem containsExpr_iff (found : Bool) (e : Expression Λ L) :
    (found || containsExpr current found e) = true ↔
      found = true ∨ Spots current (seenInExpr e) := by
  obtain ⟨label, yield, form⟩ := e
  cases form <;> simp [containsExpr, seenInExpr, containsVar, containsVars_cons]

theorem containsTarget_iff (found : Bool) (target : Target Λ L) :
    (found || containsTarget current found target) = true ↔
      found = true ∨ some target.baseVar ∈ current := by
  cases target <;> simp [containsTarget, containsVar, Target.baseVar, Target.base]

/-- The flag of a statement: the flag given, or something that the scan sees. -/
theorem containsEndorsement_iff (found : Bool) (s : Statement Λ L) :
    containsEndorsement current found s = true ↔ found = true ∨ Spots current (seen s) := by
  induction s generalizing found with
  | letIn l b body ih =>
      rw [containsEndorsement, Bool.or_eq_true, ih, containsExpr_iff, seen, spots_append]
      tauto
  | letRemote l b body ih =>
      rw [containsEndorsement, Bool.or_eq_true, ih, seen, spots_cons]
      simp only [containsVar, Bool.or_eq_true, decide_eq_true_eq]
      tauto
  | operation l name h args =>
      simp [containsEndorsement, seen, containsVars_cons]
  | assignment l target e => simp [containsEndorsement, seen, containsVar]
  | ret l e => simp [containsEndorsement, seen, containsVar]
  | accompanyWrite l target =>
      rw [containsEndorsement, containsTarget_iff, seen, spots_mention]
  | writeTombstone l e => simp [containsEndorsement, seen, containsVar]
  | ifThen l c t e iht ihe =>
      rw [containsEndorsement, Bool.or_eq_true, ihe, iht, seen, spots_cons, spots_append]
      simp only [containsVar, decide_eq_true_eq]
      tauto
  | whileLoop l name c body ih =>
      rw [containsEndorsement, Bool.or_eq_true, ih, seen, spots_cons]
      simp only [containsVar, decide_eq_true_eq]
  | nil l => simp [containsEndorsement, seen]
  | cons l first rest ihf ihr =>
      rw [containsEndorsement, Bool.or_eq_true, ihf, ihr, seen, spots_append]
      tauto

section Pass

variable {wl : WorkList Elem}

/-- The elements that are among these variables. -/
def Among (vars : List VarName) (e : Elem) : Prop := ∃ v ∈ vars, e = some v

theorem among_append {l r : List VarName} {e : Elem} :
    Among (l ++ r) e ↔ Among l e ∨ Among r e := by
  simp [Among, or_and_right, exists_or]

theorem foundBy_iff {s : Statement Λ L} {e : Elem} :
    FoundBy s current e ↔
      Among (endorsed s) e ∨ ∃ b ∈ bindings s, some b.1 ∈ current ∧ Among b.2 e := Iff.rfl

theorem foundBy_append {s s₁ s₂ : Statement Λ L} {e : Elem}
    (endorsements : endorsed s = endorsed s₁ ++ endorsed s₂)
    (bound : bindings s = bindings s₁ ++ bindings s₂) :
    FoundBy s current e ↔ FoundBy s₁ current e ∨ FoundBy s₂ current e := by
  simp only [foundBy_iff, endorsements, bound, among_append, List.mem_append, or_and_right,
    exists_or]
  exact or_or_or_comm

theorem finds_combineAll (sane : Sane none wl) {A : Type*} (f : A → WorkList Elem)
    (F : A → Elem → Prop) (args : List A) (each : ∀ x ∈ args, Finds none wl (f x) (F x)) :
    Finds none wl (combineAll wl (args.map f)) fun e => ∃ x ∈ args, F x e := by
  induction args with
  | nil => exact (finds_nothing wl).congr (by simp)
  | cons a rest ih =>
      have tail := ih fun x mem => each x (List.mem_cons_of_mem a mem)
      have both := tail.combine sane (each a List.mem_cons_self)
      exact both.congr fun e => by simp [or_comm]

theorem finds_addAllVarrefs (sane : Sane none wl) (e : Expression Λ L) :
    Finds none wl (addAllVarrefs wl e) (Among (references e)) := by
  obtain ⟨label, yield, form⟩ := e
  cases form with
  | constant i => exact (finds_nothing wl).congr (by simp [Among, references, operands])
  | generateTombstone =>
      exact (finds_nothing wl).congr (by simp [Among, references, operands])
  | binOp op l r =>
      have left : Finds none wl (wl.append (some l.var)) _ := finds_append wl (some l.var)
      have both := left.combine sane (finds_append wl (some r.var))
      exact both.congr (by simp [Among, references, operands])
  | operation name h args =>
      have all := finds_combineAll sane (fun x : VarRef Λ L => wl.append (some x.var))
        (fun x e => e = some x.var) (h :: args) fun x _ => finds_append wl (some x.var)
      exact all.congr (by simp [Among, references, operands])
  | varReference x =>
      exact (finds_append wl _).congr (by simp [Among, references, operands])
  | fieldReference struct f =>
      exact (finds_append wl _).congr (by simp [Among, references, operands])
  | isValid h => exact (finds_append wl _).congr (by simp [Among, references, operands])
  | endorse l x => exact (finds_append wl _).congr (by simp [Among, references, operands])

/-- Combining lists to which nothing was appended finds nothing. -/
theorem finds_untouched (sane : Sane none wl) {A : Type*} (args : List A) :
    Finds none wl (combineAll wl (args.map fun _ => wl)) fun _ => False :=
  (finds_combineAll sane (fun _ : A => wl) (fun _ _ => False) args
    fun _ _ => finds_nothing wl).congr (by simp)

theorem finds_twice (sane : Sane none wl) : Finds none wl (wl.combine wl) fun _ => False :=
  ((finds_nothing wl).combine sane (finds_nothing wl)).congr (by simp)

theorem finds_collectExpr (sane : Sane none wl) (e : Expression Λ L) :
    Finds none wl (collectExpr wl e) (Among (endorsedBy e)) := by
  obtain ⟨label, yield, form⟩ := e
  cases form with
  | endorse l x => exact (finds_append wl _).congr (by simp [Among, endorsedBy])
  | binOp op l r => exact (finds_twice sane).congr (by simp [Among, endorsedBy])
  | operation name h args =>
      exact (finds_untouched sane (h :: args)).congr (by simp [Among, endorsedBy])
  | _ => exact (finds_nothing wl).congr (by simp [Among, endorsedBy])

theorem endorsedBy_subset (e : Expression Λ L) : endorsedBy e ⊆ references e := by
  obtain ⟨label, yield, form⟩ := e
  cases form <;> simp [endorsedBy, references, operands]

theorem finds_collectBinding (sane : Sane none wl) (b : Binding Λ L (Expression Λ L)) :
    Finds none wl (collectBinding wl b) fun e =>
      Among (endorsedBy b.expr) e ∨ (some b.var ∈ wl.current ∧ Among (references b.expr) e) := by
  by_cases here : some b.var ∈ wl.current
  · rw [collectBinding, if_pos here]
    refine (finds_addAllVarrefs sane b.expr).congr fun e => ?_
    constructor
    · intro among
      exact Or.inr ⟨here, among⟩
    · rintro (⟨v, mem, rfl⟩ | ⟨-, among⟩)
      · exact ⟨v, endorsedBy_subset _ mem, rfl⟩
      · exact among
  · rw [collectBinding, if_neg here]
    exact (finds_collectExpr sane b.expr).congr (by simp [here])

theorem finds_collectRemote (b : Binding Λ L (VarRef Λ L)) :
    Finds none wl (collectRemote wl b) fun e =>
      some b.var ∈ wl.current ∧ Among [b.expr.var] e := by
  by_cases here : some b.var ∈ wl.current
  · rw [collectRemote, if_pos here]
    exact (finds_append wl _).congr (by simp [Among, here])
  · rw [collectRemote, if_neg here]
    exact (finds_nothing wl).congr (by simp [here])

variable [DecidableEq Λ]

theorem stuck_ifThen {l : Λ} {c : VarRef Λ L} {t e : Statement Λ L} :
    Stuck (.ifThen l c t e) current ↔
      (l = c.label ∧ Spots current (seen (.ifThen l c t e))) ∨ Stuck t current ∨
        Stuck e current := by
  simp [Stuck, guards, or_and_right, exists_or]

theorem stuck_whileLoop {l : Λ} {name : VarName} {c : VarRef Λ L} {body : Statement Λ L} :
    Stuck (.whileLoop l name c body) current ↔
      (l = c.label ∧ Spots current (seen body)) ∨ Stuck body current := by
  simp [Stuck, guards]

theorem stuck_cons {l : Λ} {first rest : Statement Λ L} :
    Stuck (.cons l first rest) current ↔ Stuck first current ∨ Stuck rest current := by
  simp [Stuck, guards, or_and_right, exists_or]

omit [DecidableEq Λ] in
/-- The scan made for an if or a while, started without a flag. -/
theorem scan_iff (s : Statement Λ L) :
    containsEndorsement current false s = true ↔ Spots current (seen s) := by
  simp [containsEndorsement_iff]

/-- A pass that is not stuck finds the endorsed variables and what current ones are bound to. -/
theorem collect_finds (sane : Sane none wl) (s : Statement Λ L)
    (free : ¬ Stuck s wl.current) :
    ∃ w, collectPreEndorse wl s = some w ∧ Finds none wl w (FoundBy s wl.current) := by
  induction s with
  | letIn l b body ih =>
      obtain ⟨w, ran, found⟩ := ih free
      refine ⟨_, by simp [collectPreEndorse, ran]; rfl, ?_⟩
      refine ((finds_collectBinding sane b).combine sane found).congr fun e => ?_
      simp only [foundBy_iff, endorsed, bindings, among_append, List.exists_mem_cons_iff]
      tauto
  | letRemote l b body ih =>
      obtain ⟨w, ran, found⟩ := ih free
      refine ⟨_, by simp [collectPreEndorse, ran]; rfl, ?_⟩
      refine ((finds_collectRemote b).combine sane found).congr fun e => ?_
      simp only [foundBy_iff, endorsed, bindings, List.exists_mem_cons_iff]
      tauto
  | operation l name h args =>
      exact ⟨_, rfl, (finds_untouched sane (h :: args)).congr (by simp [FoundBy, endorsed, bindings])⟩
  | assignment l target e =>
      exact ⟨_, rfl, (finds_twice sane).congr (by simp [FoundBy, endorsed, bindings])⟩
  | ifThen l c t e iht ihe =>
      rw [stuck_ifThen, not_or, not_or] at free
      obtain ⟨inThen, ranThen, foundThen⟩ := iht free.2.1
      obtain ⟨inElse, ranElse, foundElse⟩ := ihe free.2.2
      have split (x : Elem) : FoundBy (.ifThen l c t e) wl.current x ↔
          FoundBy t wl.current x ∨ FoundBy e wl.current x := foundBy_append rfl rfl
      by_cases matched : l = c.label
      · have unseen : containsEndorsement wl.current false (.ifThen l c t e) = false := by
          rw [← Bool.not_eq_true, scan_iff]
          exact fun spots => free.1 ⟨matched, spots⟩
        refine ⟨inThen.combine inElse, ?_, (foundThen.combine sane foundElse).congr ?_⟩
        · simp only [collectPreEndorse, ranThen, ranElse, if_pos matched, unseen]
          rfl
        · exact fun x => (split x).symm
      · refine ⟨(wl.combine inThen).combine inElse, ?_, ?_⟩
        · simp only [collectPreEndorse, ranThen, ranElse, if_neg matched]
          rfl
        · have first := (finds_nothing wl).combine sane foundThen
          refine (first.combine sane foundElse).congr fun x => ?_
          rw [split, false_or]
  | whileLoop l name c body ih =>
      rw [stuck_whileLoop, not_or] at free
      obtain ⟨inBody, ran, found⟩ := ih free.2
      by_cases matched : l = c.label
      · have unseen : containsEndorsement wl.current false body = false := by
          rw [← Bool.not_eq_true, scan_iff]
          exact fun spots => free.1 ⟨matched, spots⟩
        refine ⟨inBody, ?_, found⟩
        simp only [collectPreEndorse, ran, if_pos matched, unseen]
        rfl
      · refine ⟨wl.combine inBody, ?_, ((finds_nothing wl).combine sane found).congr ?_⟩
        · simp only [collectPreEndorse, ran, if_neg matched]
          rfl
        · intro x
          rw [false_or]
          rfl
  | cons l first rest ihf ihr =>
      rw [stuck_cons, not_or] at free
      obtain ⟨inFirst, ranFirst, foundFirst⟩ := ihf free.1
      obtain ⟨inRest, ranRest, foundRest⟩ := ihr free.2
      refine ⟨inRest.combine inFirst, ?_, (foundRest.combine sane foundFirst).congr ?_⟩
      · simp only [collectPreEndorse, ranFirst, ranRest]
        rfl
      · intro x
        rw [or_comm]
        exact (foundBy_append rfl rfl).symm
  | _ => exact ⟨_, rfl, (finds_nothing wl).congr (by simp [FoundBy, endorsed, bindings])⟩

/-- A pass that is stuck does not compile. -/
theorem collect_stuck (s : Statement Λ L) (stuck : Stuck s wl.current) :
    collectPreEndorse wl s = none := by
  induction s with
  | letIn l b body ih => simp [collectPreEndorse, ih stuck]
  | letRemote l b body ih => simp [collectPreEndorse, ih stuck]
  | ifThen l c t e iht ihe =>
      rcases stuck_ifThen.mp stuck with ⟨matched, spots⟩ | inThen | inElse
      · have scanned := (scan_iff _).mpr spots
        simp [collectPreEndorse, if_pos matched, scanned]
      · simp [collectPreEndorse, iht inThen]
      · simp [collectPreEndorse, ihe inElse]
  | whileLoop l name c body ih =>
      rcases stuck_whileLoop.mp stuck with ⟨matched, spots⟩ | inBody
      · have scanned := (scan_iff _).mpr spots
        simp [collectPreEndorse, if_pos matched, scanned]
      · simp [collectPreEndorse, ih inBody]
  | cons l first rest ihf ihr =>
      rcases stuck_cons.mp stuck with inFirst | inRest
      · simp [collectPreEndorse, ihf inFirst]
      · simp [collectPreEndorse, ihr inRest]
  | _ => simp [Stuck, guards] at stuck

/-! ## All rounds -/

/-- What an element refers to: the variables of its bindings. -/
def Refs (s : Statement Λ L) (c e : Elem) : Prop :=
  ∃ b ∈ bindings s, c = some b.1 ∧ Among b.2 e

/-- Some if or while with its own case sees an endorsement. -/
def SeesEndorsement (s : Statement Λ L) : Prop :=
  ∃ g ∈ guards s, g.matched = true ∧ .endorsement ∈ g.scanned

/-- Some if or while with its own case sees the variable. -/
def SeesVariable (s : Statement Λ L) (e : Elem) : Prop :=
  ∃ x, e = some x ∧ ∃ g ∈ guards s, g.matched = true ∧ .mention x ∈ g.scanned

theorem stuck_iff (s : Statement Λ L) :
    Stuck s current ↔ SeesEndorsement s ∨ ∃ e ∈ current, SeesVariable s e := by
  constructor
  · rintro ⟨g, mem, matched, endorsement | ⟨x, scanned, here⟩⟩
    · exact Or.inl ⟨g, mem, matched, endorsement⟩
    · exact Or.inr ⟨some x, here, x, rfl, g, mem, matched, scanned⟩
  · rintro (⟨g, mem, matched, endorsement⟩ | ⟨_, here, x, rfl, g, mem, matched, scanned⟩)
    · exact ⟨g, mem, matched, Or.inl endorsement⟩
    · exact ⟨g, mem, matched, Or.inr ⟨x, scanned, here⟩⟩

theorem collect_spec (s : Statement Λ L) :
    PassSpec none (Among (endorsed s)) (Refs s) (SeesEndorsement s) (SeesVariable s)
      fun wl => collectPreEndorse wl s where
  base_ne := by
    rintro e ⟨v, -, rfl⟩
    exact Option.some_ne_none v
  refs_ne := by
    rintro c e ⟨b, -, -, v, -, rfl⟩
    exact Option.some_ne_none v
  refs_sentinel := by
    rintro e ⟨b, -, h, -⟩
    cases h
  stops := by
    intro wl _ stopped
    exact collect_stuck s ((stuck_iff s).mpr stopped)
  finds := by
    intro wl sane free
    obtain ⟨w, ran, found⟩ := collect_finds sane s (mt (stuck_iff s).mp free)
    refine ⟨w, ran, found.congr fun e => ?_⟩
    rw [foundBy_iff]
    apply or_congr_right
    constructor
    · rintro ⟨b, mem, here, among⟩
      exact ⟨some b.1, here, b, mem, rfl, among⟩
    · rintro ⟨_, here, b, mem, rfl, among⟩
      exact ⟨b, mem, here, among⟩

omit [DecidableEq Λ] in
/-- The closure of the worklist is what endorsed variables are bound to. -/
theorem closure_iff (s : Statement Λ L) (e : Elem) :
    Closure (Among (endorsed s)) (Refs s) e ↔ ∃ x, e = some x ∧ BoundTo s x := by
  constructor
  · intro reached
    induction reached with
    | base b =>
        obtain ⟨v, mem, rfl⟩ := b
        exact ⟨v, rfl, BoundTo.endorsed mem⟩
    | step _ r ih =>
        obtain ⟨x, rfl, bound⟩ := ih
        obtain ⟨b, mem, same, v, ref, rfl⟩ := r
        cases same
        exact ⟨v, rfl, BoundTo.binding mem bound ref⟩
  · rintro ⟨x, rfl, bound⟩
    induction bound with
    | endorsed mem => exact Closure.base ⟨_, mem, rfl⟩
    | binding mem _ ref ih => exact Closure.step ih ⟨_, mem, rfl, _, ref, rfl⟩

omit [DecidableEq Λ] in
theorem boundTo_finite (s : Statement Λ L) {x : VarName} (h : BoundTo s x) :
    x ∈ endorsed s ++ (bindings s).flatMap Prod.snd := by
  cases h with
  | endorsed mem => exact List.mem_append_left _ mem
  | binding mem _ ref =>
      exact List.mem_append_right _ (List.mem_flatMap.mpr ⟨_, mem, ref⟩)

/-- No if or while with its own case sees an endorsement or a variable of `BoundTo`. -/
def Unseen (s : Statement Λ L) : Prop :=
  ∀ g ∈ guards s, g.matched = true → ¬ Within (BoundTo s) g.scanned

theorem unseen_iff (s : Statement Λ L) :
    Unseen s ↔ ¬ SeesEndorsement s ∧
      ∀ e, Closure (Among (endorsed s)) (Refs s) e → ¬ SeesVariable s e := by
  simp only [closure_iff]
  constructor
  · intro unseen
    constructor
    · rintro ⟨g, mem, matched, endorsement⟩
      exact unseen g mem matched (Or.inl endorsement)
    · rintro _ ⟨x, rfl, bound⟩ ⟨y, same, g, mem, matched, scanned⟩
      cases same
      exact unseen g mem matched (Or.inr ⟨x, scanned, bound⟩)
  · rintro ⟨no_endorsement, no_variable⟩ g mem matched (endorsement | ⟨x, scanned, bound⟩)
    · exact no_endorsement ⟨g, mem, matched, endorsement⟩
    · exact no_variable _ ⟨x, rfl, bound⟩ ⟨x, rfl, g, mem, matched, scanned⟩

/-- The rounds end exactly when nothing is seen where a condition is to be appended. -/
theorem preEndorse_ends_iff (s : Statement Λ L) :
    (∃ n all, preEndorseRounds s n (start none) = some ⟨[], all⟩) ↔ Unseen s := by
  rw [unseen_iff]
  apply rounds_end_iff (collect_spec s)
    ((endorsed s ++ (bindings s).flatMap Prod.snd).map some)
  · intro e reached
    obtain ⟨x, rfl, bound⟩ := (closure_iff s e).mp reached
    exact List.mem_map_of_mem (boundTo_finite s bound)
  · rintro ⟨x, h, -⟩
    cases h

/-- What was collected when they end is what endorsed variables are bound to. -/
theorem preEndorse_all {s : Statement Λ L} {n : ℕ} {all : List Elem}
    (ends : preEndorseRounds s n (start none) = some ⟨[], all⟩) (x : VarName) :
    some x ∈ all ↔ BoundTo s x := by
  obtain ⟨-, -, exactly⟩ := rounds_empty (collect_spec s) ends
  rw [exactly _ (Option.some_ne_none x), closure_iff]
  simp

end Pass

end MixT.Endorse
