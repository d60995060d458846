import MixT.Split.Refreshing
import MixT.Split.Placement
import MixT.Phase.Remote

/-! # Transactions of phases

The phases of a program as they run: each requires what stronger phases provide of their
bindings, and owns what no phase requires of its own. What a phase refers to is in its store,
so that phases may run at other processes. -/

namespace MixT.Split

open Library
open Phase (RunnablePhase Mem Holder Region Prepared dispatchToRunner)

section Processed

variable {L V : Type} [DecidableEq L]

/-- The type of the handles of a remote variable. -/
def VarBinding.handle : VarBinding L → Option (Ty L)
  | .type ⟨_, t, _, .remoteVar⟩ => some t
  | _ => none

/-- `binding_to_holder`, and `holder_to_value` for variables that a phase owns. -/
def VarBinding.holder (owned : Bool) (b : VarBinding L) : Holder L V :=
  match b.handle with
  | some t => .remote t [] (-1)
  | none => if owned then .value none else .type .empty

/-- The phase returns something. -/
def Stmt.returns : Stmt L → Bool
  | .letIn _ _ body => returns body
  | .letRemote _ _ body => returns body
  | .ret _ _ => true
  | .ifThen _ _ t e => returns t || returns e
  | .whileLoop _ _ _ body => returns body
  | .forEach _ _ body => returns body
  | .cons first rest => returns first || returns rest
  | _ => false

/-- Each phase with `next_requires`: what it and those after it require. -/
def withNext : List (Prephase L) → List (Prephase L × List (VarBinding L))
  | [] => []
  | P :: later => (P, (P :: later).flatMap Prephase.requires) :: withNext later

/-- What a phase provides. -/
def provided (next : Prephase L × List (VarBinding L)) : List (VarBinding L) :=
  next.1.provides.filter fun b => b ∈ next.2

/-- What a phase owns. -/
def owned (next : Prephase L × List (VarBinding L)) : List (VarBinding L) :=
  next.1.provides.filter fun b => b ∉ next.2

/-- The remote maps of a store. -/
def remoteMaps (holders : List (VarBinding L)) : List (Ty L) :=
  (holders.filterMap VarBinding.handle).dedup

/-- The holders of `all_store` that phases make. -/
def transactionHolders (ps : List (Prephase L)) : List (VarBinding L) :=
  (withNext ps).flatMap provided ++ (withNext ps).flatMap owned

/-- A phase of `processed`, in a transaction with the given holders. Its store is that of the
transaction restricted to it. -/
def toRunnable (holders : List (VarBinding L)) (next : Prephase L × List (VarBinding L)) :
    RunnablePhase L :=
  let requirements := (next.1.requires.filter fun b => b ∉ next.1.provides).map VarBinding.name
  let provides := (provided next).map VarBinding.name
  let owned := (owned next).map VarBinding.name
  { ast := next.1.ast.toPhase
    label := next.1.label
    returnsVoid := !next.1.ast.returns
    requirements, provides, owned
    maps := remoteMaps (holders.filter fun b => b.name ∈ requirements ++ provides ++ owned) }

/-- `pretransaction::processed`. -/
def processed (ps : List (Prephase L)) : List (RunnablePhase L) :=
  (withNext ps).map (toRunnable (transactionHolders ps))

/-- `all_store` over the inputs of a transaction, which are bound. -/
def allStore (inputs : List VarName) (value : VarName → V) (ps : List (Prephase L)) : Mem L V where
  holders x :=
    if x ∈ inputs then .value (some (value x))
    else
      match ((withNext ps).flatMap provided).find? fun b => b.name = x with
      | some b => b.holder false
      | none =>
          match ((withNext ps).flatMap owned).find? fun b => b.name = x with
          | some b => b.holder true
          | none => .value none
  super _ _ := .empty

variable {ps : List (Prephase L)} {next : Prephase L × List (VarBinding L)}
  {holders : List (VarBinding L)} {x : VarName}

omit [DecidableEq L] in
theorem mem_withNext (h : next ∈ withNext ps) :
    next.1 ∈ ps ∧ ∀ b ∈ next.1.requires, b ∈ next.2 := by
  induction ps with
  | nil => cases h
  | cons P later ih =>
      obtain rfl | h := List.mem_cons.mp h
      · exact ⟨List.mem_cons_self, fun b hb => List.mem_flatMap.mpr ⟨P, List.mem_cons_self, hb⟩⟩
      · exact ⟨List.mem_cons_of_mem _ (ih h).1, (ih h).2⟩

omit [DecidableEq L] in
theorem exists_withNext {P : Prephase L} (h : P ∈ ps) : ∃ later, (P, later) ∈ withNext ps := by
  induction ps with
  | nil => cases h
  | cons Q later ih =>
      obtain rfl | h := List.mem_cons.mp h
      · exact ⟨_, List.mem_cons_self⟩
      · obtain ⟨after, h⟩ := ih h
        exact ⟨after, List.mem_cons_of_mem _ h⟩

omit [DecidableEq L] in
/-- What later phases require each phase knows. -/
theorem withNext_pairwise {R : Prephase L → Prephase L → Prop} (h : ps.Pairwise R) :
    (withNext ps).Pairwise fun p q => R p.1 q.1 ∧ ∀ b ∈ q.1.requires, b ∈ p.2 := by
  induction ps with
  | nil => exact List.Pairwise.nil
  | cons P later ih =>
      obtain ⟨here, rest⟩ := List.pairwise_cons.mp h
      refine List.pairwise_cons.mpr ⟨fun q hq => ?_, ih rest⟩
      have member := (mem_withNext hq).1
      exact ⟨here _ member,
        fun b hb => List.mem_flatMap.mpr ⟨q.1, List.mem_cons_of_mem _ member, hb⟩⟩

theorem mem_provided_or_owned {b : VarBinding L} :
    b ∈ provided next ∨ b ∈ owned next ↔ b ∈ next.1.provides := by
  simp only [provided, owned, List.mem_filter, decide_eq_true_eq]
  tauto

theorem mem_transactionHolders {b : VarBinding L} :
    b ∈ transactionHolders ps ↔ ∃ P ∈ ps, b ∈ P.provides := by
  simp only [transactionHolders, List.mem_append, List.mem_flatMap]
  constructor
  · rintro (⟨next, hn, hb⟩ | ⟨next, hn, hb⟩)
    · exact ⟨next.1, (mem_withNext hn).1, mem_provided_or_owned.mp (Or.inl hb)⟩
    · exact ⟨next.1, (mem_withNext hn).1, mem_provided_or_owned.mp (Or.inr hb)⟩
  · rintro ⟨P, hP, hb⟩
    obtain ⟨later, hn⟩ := exists_withNext hP
    obtain provided | owned := mem_provided_or_owned.mpr (show b ∈ (P, later).1.provides from hb)
    · exact Or.inl ⟨_, hn, provided⟩
    · exact Or.inr ⟨_, hn, owned⟩

theorem mem_bound : x ∈ (toRunnable holders next).bound ↔ ∃ b ∈ next.1.provides, b.name = x := by
  simp only [RunnablePhase.bound, toRunnable, List.mem_append, List.mem_map, ← mem_provided_or_owned]
  grind

theorem mem_names : x ∈ (toRunnable holders next).names ↔
    ∃ b ∈ next.1.requires ++ next.1.provides, b.name = x := by
  have bound : x ∈ (toRunnable holders next).provides ++ (toRunnable holders next).owned ↔ _ :=
    mem_bound
  rw [RunnablePhase.names, List.append_assoc, List.mem_append, bound]
  simp only [toRunnable, List.mem_map, List.mem_filter, decide_eq_true_eq, List.mem_append]
  grind

omit [DecidableEq L] in
@[simp] theorem handleType_holder (owned : Bool) (b : VarBinding L) :
    (b.holder owned : Holder L V).handleType = b.handle := by
  unfold VarBinding.holder
  cases b.handle with
  | some t => rfl
  | none => cases owned <;> rfl

omit [DecidableEq L] in
@[simp] theorem fresh_holder (owned : Bool) (b : VarBinding L) :
    (b.holder owned : Holder L V).fresh = b.holder owned := by
  unfold VarBinding.holder
  cases b.handle with
  | some t => rfl
  | none => cases owned <;> rfl

end Processed

section Binds

namespace Stmt

variable {L : Type*}

/-- The variables that a phase binds. -/
def binds : Stmt L → List VarName
  | .letIn _ b body => b.var :: binds body
  | .letRemote _ b body => b.var :: binds body
  | .ifThen _ _ t e => binds t ++ binds e
  | .whileLoop _ name _ body => name :: binds body
  | .forEach _ _ body => binds body
  | .cons first rest => binds first ++ binds rest
  | _ => []

@[simp] theorem binds_append (s t : Stmt L) : (s.append t).binds = s.binds ++ t.binds := by
  induction s with
  | cons first rest _ ih => simp [append, binds, ih]
  | _ => simp [append, binds]

@[simp] theorem binds_collapse (s : Stmt L) : s.collapse.binds = s.binds := by
  induction s with
  | cons first rest ihf ihr => simp [collapse, binds, ihf, ihr]
  | _ => rfl

theorem binds_letAstIfOperation (o : Origin) (e : Expression L L) (ast : Stmt L) :
    (letAstIfOperation o e ast).binds = ast.binds := by
  unfold letAstIfOperation
  split <;> simp [binds]

theorem implied_letAstIfOperation (o : Origin) (e : Expression L L) (ast : Stmt L) :
    (letAstIfOperation o e ast).implied = ast.implied := by
  unfold letAstIfOperation
  split <;> simp [implied]

theorem binds_removeUnused {requires : List (VarBinding L)} (s : Stmt L) :
    (removeUnused requires s).binds = s.binds := by
  induction s with
  | incrementOccurance o x => unfold removeUnused; split <;> rfl
  | incrementRemoteOccurance o x => unfold removeUnused; split <;> rfl
  | refreshRemoteOccurance o h => unfold removeUnused; split <;> rfl
  | _ => simp_all [removeUnused, binds]

theorem binds_of_clearEmpty {s : Stmt L} {x : VarName} (h : x ∈ (clearEmpty s).ast.binds) :
    x ∈ s.binds := by
  induction s with
  | ifThen o c t e iht ihe =>
      rw [clearEmpty_ifThen] at h
      split at h
      · simp [binds] at h
      · grind [binds]
  | _ => grind [clearEmpty, binds, binds_collapse]

/-- The variables whose holders a phase works on itself: those that it assigns, and those of
tombstones and of the writes that they accompany. -/
def direct : Stmt L → List VarName
  | .letIn _ _ body => direct body
  | .letRemote _ _ body => direct body
  | .assignment _ target _ => [target.baseVar]
  | .accompanyWrite _ target => [target.baseVar]
  | .writeTombstone _ e => [e.var]
  | .ifThen _ _ t e => direct t ++ direct e
  | .whileLoop _ _ _ body => direct body
  | .forEach _ _ body => direct body
  | .cons first rest => direct first ++ direct rest
  | _ => []

theorem uses_of_direct {s : Stmt L} {x : VarName} (h : x ∈ s.direct) : x ∈ s.uses := by
  induction s with
  | _ => grind [direct, uses]

end Stmt

end Binds

section Known

variable {L : Type} [LinearOrder L] {k : L} {inherits provides : List (VarBinding L)}

/-- The variable is a constant, or has a type among the bindings. -/
def Known (bindings : List (VarBinding L)) (x : VarName) : Prop :=
  Builtin.isBuiltinVar x = true ∨ ∃ b, .type b ∈ bindings ∧ b.name = x

omit [LinearOrder L] in
theorem Known.mono {bindings others : List (VarBinding L)} {x : VarName} (h : Known bindings x)
    (sub : bindings ⊆ others) : Known others x :=
  h.imp_right fun ⟨b, hb, hx⟩ => ⟨b, sub hb, hx⟩

theorem collectVar_known {x : VarRef L L} {reqs : List (VarBinding L)}
    (h : collectVar k inherits provides x = .ok reqs) :
    Known (inherits ++ provides) x.var ∧ reqs ⊆ inherits := by
  unfold collectVar at h
  split at h
  · rename_i builtin
    obtain rfl : [] = reqs := by simpa using h
    exact ⟨Or.inl builtin, List.nil_subset _⟩
  split at h
  · simp at h
  split at h
  · rename_i bound
    obtain rfl : [] = reqs := by simpa using h
    obtain ⟨b, hb, hname, -⟩ := containsSubtype_iff.mp bound
    exact ⟨Or.inr ⟨b, List.mem_append_right _ hb, hname⟩, List.nil_subset _⟩
  split at h
  · rename_i b found
    obtain rfl : [b] = reqs := by simpa using h
    have inherited := List.mem_of_find?_eq_some found
    have binds := List.find?_some found
    cases b with
    | type b =>
        simp only [VarBinding.binds, decide_eq_true_eq] at binds
        exact ⟨Or.inr ⟨b, List.mem_append_left _ inherited, binds.1⟩, by simpa using inherited⟩
    | loop name => simp [VarBinding.binds] at binds
  · simp at h

theorem collectVars_known {xs : List (VarRef L L)} {reqs : List (VarBinding L)}
    (h : collectVars k inherits provides xs = .ok reqs) :
    (∀ x ∈ xs, Known (inherits ++ provides) x.var) ∧ reqs ⊆ inherits := by
  induction xs generalizing reqs with
  | nil =>
      obtain rfl : [] = reqs := by simpa [collectVars] using h
      simp
  | cons x rest ih =>
      obtain ⟨r, hr, h⟩ := except_bind_ok h
      obtain ⟨rs, hrs, h⟩ := except_bind_ok h
      obtain rfl : r ++ rs = reqs := by simpa using h
      obtain ⟨known, sub⟩ := collectVar_known hr
      obtain ⟨knownRest, subRest⟩ := ih hrs
      exact ⟨by simpa using ⟨known, knownRest⟩, List.append_subset.mpr ⟨sub, subRest⟩⟩

theorem collectExpr_known {e : Expression L L} {reqs : List (VarBinding L)}
    (h : collectExpr k inherits provides e = .ok reqs) :
    (∀ x ∈ formVars (e.form.mapLabel unlabel), Known (inherits ++ provides) x) ∧
      reqs ⊆ inherits := by
  obtain ⟨label, yield, form⟩ := e
  cases form with
  | varReference x => simpa [formVars, Form.mapLabel] using collectVar_known h
  | fieldReference struct f =>
      simpa [formVars, Form.mapLabel, VarRef.mapLabel] using collectVar_known h
  | constant i =>
      obtain rfl : [] = reqs := by simpa [collectExpr] using h
      simp [formVars, Form.mapLabel]
  | binOp op l r => simpa [formVars, Form.mapLabel, VarRef.mapLabel] using collectVars_known h
  | generateTombstone =>
      obtain rfl : [] = reqs := by simpa [collectExpr] using h
      simp [formVars, Form.mapLabel]
  | isValid x => simpa [formVars, Form.mapLabel, VarRef.mapLabel] using collectVar_known h
  | endorse l x => simp [collectExpr] at h
  | operation name x args =>
      simpa [formVars, Form.mapLabel, VarRef.mapLabel, Function.comp_def] using collectVars_known h

/-- Where a phase has what it refers to from. -/
structure Sourced (inherits provides : List (VarBinding L)) (c : Collected L) : Prop where
  known : ∀ x ∈ c.ast.uses, Known (inherits ++ (provides ++ c.provides)) x
  requires : ∀ b ∈ c.requires, b ∈ inherits ∨ ∃ name, b = .loop name ∧ b ∈ provides
  binds : ∀ x ∈ c.ast.binds, containsVarOfName x c.provides = true
  implied : ∀ x ∈ c.ast.implied, x = Builtin.tombstoneName ∨ .loop x ∈ c.requires

omit [LinearOrder L] in
theorem Sourced.nothing : Sourced inherits provides (⟨[], [], .nil⟩ : Collected L) :=
  ⟨by simp [Stmt.uses], by simp, by simp [Stmt.binds], by simp [Stmt.implied]⟩

/-- A collected phase refers to what it inherits and what it binds. -/
theorem collectPhase_sourced {o : Origin} {s : Statement L L} {c : Collected L}
    (h : collectPhase k inherits o provides s = .ok c) : Sourced inherits provides c := by
  induction s generalizing o provides c with
  | letIn label b body ih =>
      obtain ⟨rfl, -, reqs, c', hreqs, hbody, rfl⟩ | ⟨-, c', hbody, rfl⟩ := collectPhase_letIn h
      · obtain ⟨known, sub⟩ := collectExpr_known hreqs
        have inBody := ih hbody
        refine ⟨fun x hx => ?_, fun r hr => ?_, fun x hx => ?_, fun x hx => ?_⟩
        · obtain hx | hx := (uses_letAstIfOperation.mp hx).elim List.mem_append.mp fun h => Or.inl h.1
          · exact (known x hx).mono (by grind)
          · exact (inBody.known x hx).mono (by grind)
        · obtain hr | hr := List.mem_append.mp hr
          · exact Or.inl (sub hr)
          · have := inBody.requires r hr
            grind
        · rw [Stmt.binds_letAstIfOperation] at hx
          obtain rfl | hx := List.mem_cons.mp hx
          · exact containsVarOfName_cons.mpr (Or.inl rfl)
          · exact containsVarOfName_cons.mpr (Or.inr (inBody.binds x hx))
        · rw [Stmt.implied_letAstIfOperation] at hx
          exact (inBody.implied x hx).imp_right fun h => List.mem_append_right _ h
      · have inBody := ih hbody
        exact ⟨by simpa [Stmt.uses] using inBody.known, inBody.requires,
          by simpa [Stmt.binds] using inBody.binds, by simpa [Stmt.implied] using inBody.implied⟩
  | letRemote label b body ih =>
      obtain ⟨rfl, -, reqs, c', hreqs, hbody, rfl⟩ |
        ⟨-, c', hbody, ⟨-, reqs, found, rfl⟩ | ⟨-, rfl⟩⟩ := collectPhase_letRemote h
      · obtain ⟨known, sub⟩ := collectVar_known hreqs
        have inBody := ih hbody
        refine ⟨fun x hx => ?_, fun r hr => ?_, fun x hx => ?_, fun x hx => ?_⟩
        · obtain rfl | hx := List.mem_cons.mp hx
          · exact Known.mono known (by grind)
          · exact (inBody.known x hx).mono (by grind)
        · obtain hr | hr := List.mem_append.mp hr
          · exact Or.inl (sub hr)
          · have := inBody.requires r hr
            grind
        · obtain rfl | hx := List.mem_cons.mp hx
          · exact containsVarOfName_cons.mpr (Or.inl rfl)
          · exact containsVarOfName_cons.mpr (Or.inr (inBody.binds x hx))
        · exact (inBody.implied x hx).imp_right fun h => List.mem_append_right _ h
      · have inBody := ih hbody
        refine ⟨by simpa [Stmt.uses] using inBody.known, fun r hr => ?_,
          by simpa [Stmt.binds] using inBody.binds, fun x hx => ?_⟩
        · obtain hr | hr := List.mem_append.mp hr
          · obtain ⟨-, rfl⟩ | ⟨r', hr', rfl⟩ := found
            · cases hr
            · obtain rfl := List.mem_singleton.mp hr
              exact Or.inl (List.mem_of_find?_eq_some hr')
          · exact inBody.requires r hr
        · have := inBody.implied x (by simpa [Stmt.implied] using hx)
          exact this.imp_right fun h => List.mem_append_right _ h
      · exact ih hbody
  | operation label name hd args =>
      obtain ⟨-, reqs, hreqs, rfl⟩ | ⟨-, rfl⟩ := collectPhase_operation h
      · obtain ⟨known, sub⟩ := collectVars_known hreqs
        refine ⟨fun x hx => ?_, fun r hr => Or.inl (sub hr), fun x hx => ?_, fun x hx => ?_⟩
        · have named : x ∈ (hd :: args).map VarRef.var := by
            split at hx
            · simpa [Stmt.uses, VarRef.mapLabel, Function.comp_def] using hx
            · simp [Stmt.uses, VarRef.mapLabel] at hx ⊢
              tauto
          obtain ⟨y, hy, rfl⟩ := List.mem_map.mp named
          exact (known y hy).mono (by simp)
        · split at hx <;> simp [Stmt.binds] at hx
        · split at hx <;> simp [Stmt.implied] at hx
      · exact .nothing
  | assignment label target e =>
      obtain ⟨-, reqs, hreqs, rfl⟩ | ⟨-, rfl⟩ := collectPhase_assignment h
      · obtain ⟨known, sub⟩ := collectVars_known hreqs
        refine ⟨fun x hx => ?_, fun r hr => Or.inl (sub hr), by simp [Stmt.binds],
          by simp [Stmt.implied]⟩
        have named : x ∈ [target.base, e].map VarRef.var := by
          simpa [Stmt.uses, baseVar_unlabel, VarRef.mapLabel] using hx
        obtain ⟨y, hy, rfl⟩ := List.mem_map.mp named
        exact (known y hy).mono (by simp)
      · split
        · exact ⟨by simp [Stmt.uses], by simp, by simp [Stmt.binds], by simp [Stmt.implied]⟩
        · exact .nothing
  | ret label e =>
      obtain ⟨-, reqs, hreqs, rfl⟩ | ⟨-, rfl⟩ := collectPhase_ret h
      · obtain ⟨known, sub⟩ := collectVar_known hreqs
        exact ⟨by simpa [Stmt.uses, VarRef.mapLabel] using known, fun r hr => Or.inl (sub hr),
          by simp [Stmt.binds], by simp [Stmt.implied]⟩
      · exact .nothing
  | accompanyWrite label target =>
      obtain ⟨-, reqs, hreqs, rfl⟩ | ⟨-, rfl⟩ := collectPhase_accompanyWrite h
      · obtain ⟨known, sub⟩ := collectVar_known hreqs
        exact ⟨by simpa [Stmt.uses, baseVar_unlabel] using known, fun r hr => Or.inl (sub hr),
          by simp [Stmt.binds], by simp [Stmt.implied]⟩
      · exact .nothing
  | writeTombstone label e =>
      obtain ⟨-, reqs, hreqs, rfl⟩ | ⟨-, rfl⟩ := collectPhase_writeTombstone h
      · obtain ⟨known, sub⟩ := collectVar_known hreqs
        exact ⟨by simpa [Stmt.uses, VarRef.mapLabel] using known, fun r hr => Or.inl (sub hr),
          by simp [Stmt.binds], by simp [Stmt.implied]⟩
      · exact .nothing
  | ifThen label condition t e iht ihe =>
      obtain ⟨-, reqs, ct, ce, hreqs, ht, he, rfl⟩ | ⟨-, rfl⟩ := collectPhase_ifThen h
      · obtain ⟨known, sub⟩ := collectVar_known hreqs
        have inThen := iht ht
        have inElse := ihe he
        refine ⟨fun x hx => ?_, fun r hr => ?_, fun x hx => ?_, fun x hx => ?_⟩
        · simp only [Stmt.uses, VarRef.mapLabel, List.mem_cons, List.mem_append] at hx
          obtain rfl | hx | hx := hx
          · exact known.mono (by grind)
          · exact (inThen.known x hx).mono (by grind)
          · exact (inElse.known x hx).mono (by grind)
        · obtain hr | hr := List.mem_append.mp hr
          · exact (List.mem_append.mp hr).elim (fun h => Or.inl (sub h)) (inThen.requires r)
          · exact inElse.requires r hr
        · exact containsVarOfName_append.mpr
            ((List.mem_append.mp hx).imp (inThen.binds x) (inElse.binds x))
        · obtain hx | hx := List.mem_append.mp hx
          · exact (inThen.implied x hx).imp_right (by simp_all)
          · exact (inElse.implied x hx).imp_right (by simp_all)
      · exact .nothing
  | whileLoop label name condition body ih =>
      obtain ⟨-, reqs, c', hreqs, hbody, rfl⟩ | ⟨-, -, found, c', hbody, rfl⟩ | ⟨-, -, rfl⟩ :=
        collectPhase_whileLoop h
      · obtain ⟨known, sub⟩ := collectVar_known hreqs
        have inBody := ih hbody
        refine ⟨fun x hx => ?_, fun r hr => ?_, fun x hx => ?_, fun x hx => ?_⟩
        · simp only [Stmt.uses, VarRef.mapLabel, List.mem_cons] at hx
          obtain rfl | hx := hx
          · exact known.mono (by grind)
          · exact (inBody.known x hx).mono (by grind)
        · exact (List.mem_append.mp hr).elim (fun h => Or.inl (sub h)) (inBody.requires r)
        · simp only [Stmt.binds, List.mem_cons] at hx
          apply containsVarOfName_append.mpr
          obtain rfl | hx := hx
          · exact Or.inr (containsVarOfName_cons.mpr (Or.inl rfl))
          · exact Or.inl (inBody.binds x hx)
        · exact (inBody.implied x hx).imp_right fun h => List.mem_append_right _ h
      · have inBody := ih hbody
        refine ⟨inBody.known, fun r hr => ?_, inBody.binds, fun x hx => ?_⟩
        · obtain hr | hr := List.mem_append.mp hr
          · exact inBody.requires r hr
          · obtain rfl := List.mem_singleton.mp hr
            exact found.symm.imp_right fun h => ⟨name, rfl, h⟩
        · simp only [Stmt.implied, List.mem_cons] at hx
          obtain rfl | hx := hx
          · exact Or.inr (List.mem_append_right _ (List.mem_singleton_self _))
          · exact (inBody.implied x hx).imp_right fun h => List.mem_append_left _ h
      · exact .nothing
  | nil label =>
      obtain rfl := collectPhase_nil h
      exact .nothing
  | cons label first rest ihf ihr =>
      obtain ⟨cf, cr, hf, hr, rfl⟩ := collectPhase_cons h
      have inFirst := ihf hf
      have inRest := ihr hr
      refine ⟨fun x hx => ?_, fun r hr => ?_, fun x hx => ?_, fun x hx => ?_⟩
      · simp only [Stmt.uses_collapse, Stmt.uses, List.mem_append] at hx
        obtain hx | hx := hx
        · exact (inFirst.known x hx).mono (by grind)
        · exact (inRest.known x hx).mono (by grind)
      · exact (List.mem_append.mp hr).elim (inFirst.requires r) (inRest.requires r)
      · simp only [Stmt.binds_collapse, Stmt.binds, List.mem_append] at hx
        exact containsVarOfName_append.mpr (hx.imp (inFirst.binds x) (inRest.binds x))
      · simp only [Stmt.implied_collapse, Stmt.implied, List.mem_append] at hx
        obtain hx | hx := hx
        · exact (inFirst.implied x hx).imp_right fun h => List.mem_append_left _ h
        · exact (inRest.implied x hx).imp_right fun h => List.mem_append_right _ h

end Known

section Within

variable {L : Type} {r : Region L} {maps : List (Ty L)}

theorem direct_of_assigned {s : Stmt L} {x : VarName} (h : x ∈ s.toPhase.assigned) :
    x ∈ s.direct := by
  induction s with
  | assignment o target e =>
      cases target <;> exact h
  | _ => grind [Stmt.toPhase, Phase.Stmt.assigned, Stmt.direct]

theorem namesAll_varReference (args : List (VarRef Unit L)) :
    Phase.Expr.namesAll (args.map fun arg => Phase.Expr.varReference arg.var) =
      args.map VarRef.var := by
  induction args with
  | nil => rfl
  | cons arg rest ih => simp [Phase.Expr.namesAll, Phase.Expr.names, ih]

theorem names_toExpr (f : Form Unit L) : (toExpr f).names = formVars f := by
  cases f <;> simp [toExpr, Phase.Expr.names, formVars, namesAll_varReference]

/-- In a store, a phase of the splitter refreshes what it refreshes as it runs. -/
theorem toPhase_forStore [DecidableEq L] (types : List (Ty L)) (s : Stmt L) :
    (s.forStore types).toPhase = s.toPhase.forStore types := by
  induction s with
  | assignment o target e => cases target <;> rfl
  | refreshRemoteOccurance o h =>
      simp only [Stmt.forStore, Stmt.keepRefreshes, Stmt.toPhase, Phase.Stmt.forStore,
        decide_eq_true_eq, List.contains_iff_mem]
      split <;> rfl
  | _ => simp_all [Stmt.forStore, Stmt.keepRefreshes, Stmt.toPhase, Phase.Stmt.forStore]

theorem refreshed_toPhase (s : Stmt L) : s.toPhase.refreshed = s.refreshed.map VarRef.yield := by
  induction s with
  | assignment o target e => cases target <;> rfl
  | _ => simp_all [Stmt.toPhase, Phase.Stmt.refreshed, Stmt.refreshed]

theorem binds_reads {s : Stmt L} {x : VarName} (h : x ∈ s.binds) : x ∈ s.toPhase.reads := by
  induction s with
  | _ => grind [Stmt.toPhase, Phase.Stmt.reads, Stmt.binds]

theorem implied_reads {s : Stmt L} {x : VarName} (h : x ∈ s.implied) : x ∈ s.toPhase.reads := by
  induction s with
  | _ => grind [Stmt.toPhase, Phase.Stmt.reads, Stmt.implied]

/-- As it runs, a phase reads what it binds, names or follows. -/
theorem reads_toPhase {s : Stmt L} {x : VarName} (h : x ∈ s.toPhase.reads) :
    x ∈ s.binds ∨ x ∈ s.uses ∨ x ∈ s.implied := by
  induction s with
  | assignment o target e =>
      right
      left
      cases target <;> exact h
  | operation o name hd args =>
      right
      left
      simpa [Stmt.toPhase, Phase.Stmt.reads, Phase.Expr.names, namesAll_varReference, Stmt.uses] using h
  | _ => grind [Stmt.toPhase, Phase.Stmt.reads, Phase.Expr.names, names_toExpr, Stmt.binds,
      Stmt.uses, Stmt.implied]

/-- A phase works on the region of the variables that it refers to. -/
theorem toPhase_within [DecidableEq L] {s : Stmt L}
    (uses : ∀ x ∈ s.uses, Builtin.isBuiltinVar x = true ∨ r.names x)
    (reads : ∀ x ∈ s.toPhase.reads, Builtin.isBuiltinVar x = true ∨ r.reads x)
    (implied : ∀ x ∈ s.implied, r.reads x) (steps : ∀ x ∈ s.steps, r.names x)
    (constants : ∀ x ∈ s.direct, Builtin.isBuiltinVar x = false)
    (assigned : ∀ x ∈ s.toPhase.assigned, r.assigns x) (binds : ∀ x ∈ s.binds, r.binds x)
    (refreshed : ∀ h ∈ s.refreshed, h.yield ∈ maps → r.types h.yield) :
    (s.toPhase.forStore maps).Within r := by
  induction s with
  | letIn o b body ih =>
      refine ⟨fun x hx => reads x ?_, binds _ List.mem_cons_self, ih ?_ ?_ implied steps constants
        assigned (fun x hx => binds x (List.mem_cons_of_mem _ hx)) refreshed⟩
      · exact List.mem_cons_of_mem _ (List.mem_append_left _ hx)
      · exact fun x hx => uses x (List.mem_append_right _ hx)
      · exact fun x hx => reads x (List.mem_cons_of_mem _ (List.mem_append_right _ hx))
  | letRemote o b body ih =>
      refine ⟨fun x hx => reads x ?_, binds _ List.mem_cons_self, ih ?_ ?_ implied steps constants
        assigned (fun x hx => binds x (List.mem_cons_of_mem _ hx)) refreshed⟩
      · exact List.mem_cons_of_mem _ (List.mem_append_left _ hx)
      · exact fun x hx => uses x (List.mem_cons_of_mem _ hx)
      · exact fun x hx => reads x (List.mem_cons_of_mem _ (List.mem_append_right _ hx))
  | operation o name h args => exact fun x hx => reads x hx
  | assignment o target e =>
      cases target with
      | var x =>
          exact ⟨fun y hy => reads y (List.mem_cons_of_mem _ hy),
            assigned _ (List.mem_singleton_self _)⟩
      | field label yield struct f =>
          exact ⟨fun y hy => reads y (List.mem_cons_of_mem _ hy),
            assigned _ (List.mem_singleton_self _)⟩
  | ret o e => exact fun x hx => reads x hx
  | accompanyWrite o target =>
      refine ⟨(uses _ (List.mem_singleton_self _)).resolve_left ?_,
        implied _ (List.mem_singleton_self _)⟩
      simp [constants target.baseVar (List.mem_singleton_self _)]
  | writeTombstone o e =>
      refine (reads _ (List.mem_singleton_self _)).resolve_left ?_
      simp [constants e.var (List.mem_singleton_self _)]
  | incrementOccurance o x => exact steps _ (List.mem_singleton_self _)
  | incrementRemoteOccurance o x => exact steps _ (List.mem_singleton_self _)
  | refreshRemoteOccurance o h =>
      simp only [Stmt.toPhase, Phase.Stmt.forStore]
      split
      · rename_i stored
        exact ⟨fun x hx => reads x hx,
          refreshed h (List.mem_singleton_self _) (List.contains_iff_mem.mp stored)⟩
      · trivial
  | ifThen o c t e iht ihe =>
      refine ⟨fun x hx => reads x (List.mem_append_left _ hx),
        iht ?_ ?_ ?_ ?_ ?_ ?_ ?_ ?_, ihe ?_ ?_ ?_ ?_ ?_ ?_ ?_ ?_⟩
      all_goals grind [Stmt.uses, Stmt.implied, Stmt.steps, Stmt.direct, Stmt.binds,
        Stmt.refreshed, Stmt.toPhase, Phase.Stmt.assigned, Phase.Stmt.reads]
  | whileLoop o name c body ih =>
      refine ⟨fun x hx => reads x ?_, binds _ List.mem_cons_self, ih ?_ ?_ implied steps constants
        assigned (fun x hx => binds x (List.mem_cons_of_mem _ hx)) refreshed⟩
      · exact List.mem_cons_of_mem _ (List.mem_append_left _ hx)
      · exact fun x hx => uses x (List.mem_cons_of_mem _ hx)
      · exact fun x hx => reads x (List.mem_cons_of_mem _ (List.mem_append_right _ hx))
  | forEach o name body ih =>
      exact ⟨implied _ List.mem_cons_self,
        ih uses (fun x hx => reads x (List.mem_cons_of_mem _ hx))
          (fun x hx => implied x (List.mem_cons_of_mem _ hx)) steps constants assigned binds
          refreshed⟩
  | nil => trivial
  | cons first rest ihf ihr =>
      refine ⟨ihf ?_ ?_ ?_ ?_ ?_ ?_ ?_ ?_, ihr ?_ ?_ ?_ ?_ ?_ ?_ ?_ ?_⟩
      all_goals grind [Stmt.uses, Stmt.implied, Stmt.steps, Stmt.direct, Stmt.binds,
        Stmt.refreshed, Stmt.toPhase, Phase.Stmt.assigned, Phase.Stmt.reads]

end Within

section Wiring

variable {L : Type} [LinearOrder L] [BoundedOrder L] {host : HostTypes L} {binder : L → Prop}
  {sorting : ComparisonSort} {inputs : List (VarName × Ty L)} {prog : Statement L L}
  {ps : List (Prephase L)}

/-- The variables and loops of a program have names of their own. -/
structure Distinct (inputs : List (VarName × Ty L)) (prog : Statement L L) : Prop where
  declared : ∀ d ∈ declared prog, ∀ d' ∈ declared prog, d.2.name = d'.2.name → d = d'
  start : ∀ d ∈ Split.declared prog, ∀ b ∈ startBindings inputs, b.name ≠ d.2.name

/-- How the phases of a program fit together. -/
structure Wired (inputs : List (VarName × Ty L)) (ps : List (Prephase L)) : Prop where
  sorted : ps.Pairwise fun P Q => Q.label < P.label
  /-- What a phase requires is an input or is provided by a stronger phase. -/
  requires : ∀ P ∈ ps, ∀ b ∈ P.requires, (∃ i ∈ startBindings inputs, .type i = b) ∨
    ∃ P' ∈ ps, P.label < P'.label ∧ b ∈ P'.provides
  /-- No two phases provide a variable. -/
  named : ∀ P ∈ ps, ∀ b ∈ P.provides, ∀ P' ∈ ps, ∀ b' ∈ P'.provides, b.name = b'.name →
    P.label = P'.label ∧ b = b'
  start : ∀ P ∈ ps, ∀ b ∈ P.provides, ∀ i ∈ startBindings inputs, i.name ≠ b.name
  /-- A remote variable is bound where its objects live, and so are objects refreshed. -/
  homed : ∀ P ∈ ps, ∀ b ∈ P.provides, ∀ t, b.handle = some t → t.label = some P.label
  refreshed : ∀ P ∈ ps, ∀ h ∈ P.ast.refreshed, h.yield.label = some P.label
  /-- A phase requires or provides what it refers to. -/
  uses : ∀ P ∈ ps, ∀ x ∈ P.ast.uses, Builtin.isBuiltinVar x = true ∨
    containsVarOfName x (P.requires ++ P.provides) = true
  implied : ∀ P ∈ ps, ∀ x ∈ P.ast.implied, x = Builtin.tombstoneName ∨
    containsVarOfName x P.requires = true
  steps : ∀ P ∈ ps, ∀ x ∈ P.ast.steps, containsVarOfName x P.requires = true
  binds : ∀ P ∈ ps, ∀ x ∈ P.ast.binds, containsVarOfName x P.provides = true

omit [LinearOrder L] [BoundedOrder L] in
theorem removed_uses {s : Stmt L} {x : VarName} (h : x ∈ (clearEmpty s).removeFromRequire) :
    x ∈ s.uses := by
  induction s with
  | ifThen o c t e iht ihe =>
      by_cases empty : ((clearEmpty t).ast.isEmptySequence && (clearEmpty e).ast.isEmptySequence) = true
      · simp only [clearEmpty, empty, if_true, List.mem_singleton] at h
        simp [Stmt.uses, h]
      · grind [clearEmpty, Stmt.uses]
  | _ => grind [clearEmpty, Stmt.uses]

/-- Remote variables are bound where their objects live. -/
theorem declared_homed {env : TypeEnv L L} {start : List (VarBinding L)}
    {all scope : List (L × VarBinding L)} {s : Statement L L}
    (typed : Typed .concrete host binder env s)
    (placeable : Placeable start all env.pcLabel scope s) :
    ∀ d ∈ declared s, ∀ t, d.2.handle = some t → t.label = some d.1 := by
  induction s generalizing env scope with
  | letIn l b body ih =>
      obtain ⟨-, -, -, -, -, hbody⟩ := typed
      obtain ⟨-, -, placeable⟩ := placeable
      intro d hd t handle
      obtain rfl | hd := List.mem_cons.mp hd
      · simp [localBinding, VarBinding.handle] at handle
      · exact ih hbody placeable d hd t handle
  | letRemote l b body ih =>
      obtain ⟨-, -, handleLabel, ops, yield, rfl, hbody⟩ := typed
      obtain ⟨-, flows, -, placeable⟩ := placeable
      intro d hd t handle
      obtain rfl | hd := List.mem_cons.mp hd
      · obtain rfl : b.expr.yield = t := by simpa [remoteBinding, VarBinding.handle] using handle
        have below : handleLabel ≤ env.pcLabel := flows handleLabel (by rw [yield]; rfl)
        simp [yield, Ty.label, below]
      · exact ih hbody placeable d hd t handle
  | ifThen l c t e iht ihe =>
      obtain ⟨-, -, -, ht, he⟩ := typed
      intro d hd
      exact (List.mem_append.mp hd).elim (iht ht placeable.1 d) (ihe he placeable.2 d)
  | whileLoop l name c body ih =>
      obtain ⟨-, -, -, hbody⟩ := typed
      intro d hd t handle
      obtain hd | hd := List.mem_append.mp hd
      · exact ih hbody placeable d hd t handle
      · rw [List.mem_singleton.mp hd] at handle
        cases handle
  | cons l first rest ihf ihr =>
      obtain ⟨-, hf, hr⟩ := typed
      intro d hd
      exact (List.mem_append.mp hd).elim (ihf hf placeable.1 d) (ihr hr placeable.2 d)
  | _ => simp [declared]

theorem builtin_start (inputs : List (VarName × Ty L)) {x : VarName}
    (builtin : Builtin.isBuiltinVar x = true) :
    ∃ i ∈ startBindings inputs, i.name = x := by
  simp only [Builtin.isBuiltinVar, Bool.or_eq_true, decide_eq_true_eq] at builtin
  obtain (rfl | rfl) | rfl := builtin <;> simp [startBindings]

/-- A loop that a phase follows is still required when ifs are removed: they test variables. -/
theorem implied_required (distinct : Distinct inputs prog) {k : L} {inherits : List (VarBinding L)}
    {c : Collected L} {x : VarName} (hc : collectPhase k inherits [] [] prog = .ok c)
    (inherited : ∀ b ∈ inherits, (∃ i ∈ startBindings inputs, .type i = b) ∨
      ∃ l, (l, b) ∈ declared prog)
    (own : ∀ b ∈ c.provides, ∃ l, (l, b) ∈ declared prog) (loop : .loop x ∈ c.requires) :
    StillRequired c x := by
  have sourced := collectPhase_sourced hc
  refine ⟨containsVarOfName_iff.mpr ⟨_, loop, rfl⟩, fun removed => ?_⟩
  have loopInherited : VarBinding.loop x ∈ inherits :=
    (sourced.requires _ loop).resolve_right (by simp)
  obtain ⟨i, -, none⟩ | ⟨l, hl⟩ := inherited _ loopInherited
  · cases none
  have noType : ∀ b : TypeBinding L L, b.name = x → ¬ ∃ l, (l, .type b) ∈ declared prog := by
    rintro b name ⟨l', hl'⟩
    cases distinct.declared _ hl _ hl' name.symm
  have noStart : ∀ i ∈ startBindings inputs, i.name ≠ x := fun i hi => distinct.start _ hl i hi
  have used : x ∈ c.ast.uses := uses_of_removeUnused (removed_uses removed)
  obtain builtin | ⟨b, hb, name⟩ := sourced.known x used
  · obtain ⟨i, hi, name⟩ := builtin_start inputs builtin
    exact absurd name (noStart i hi)
  · obtain hb | hb := List.mem_append.mp hb
    · obtain ⟨i, hi, same⟩ | found := inherited _ hb
      · cases same
        exact absurd name (noStart b hi)
      · exact absurd found (noType b name)
    · exact absurd (own _ (by simpa using hb)) (noType b name)

/-- The phases of a split program fit together. -/
theorem splitComputation_wired
    (typed : Typed .concrete host binder (startEnv inputs) prog) (operands : prog.OperandsFlow)
    (placeable : Placeable ((startBindings inputs).map .type) (declared prog) ⊤ [] prog)
    (distinct : Distinct inputs prog) (split : splitComputation sorting inputs prog = .ok ps) :
    Wired inputs ps := by
  have sorted : (phaseLabels sorting prog).Pairwise (· > ·) := phaseLabels_sorted sorting
  obtain ⟨labels, phases⟩ := splitLabels_ok typed sorted split
  -- what a phase provides is what its label declares
  have own : ∀ P ∈ ps, ∀ b ∈ P.provides, (P.label, b) ∈ declared prog := by
    intro P hP b hb
    obtain ⟨inherits, c, -, hc, final⟩ := phases P hP
    rw [final] at hb
    rwa [← mem_ofLabel, ← (collectPhase_own typed hc).2]
  have inherited : ∀ P ∈ ps, ∀ inherits b, Inherits prog ((startBindings inputs).map .type)
      (phaseLabels sorting prog) P.label inherits → b ∈ inherits →
      (∃ i ∈ startBindings inputs, .type i = b) ∨
        ∃ P' ∈ ps, P.label < P'.label ∧ b ∈ P'.provides := by
    intro P hP inherits b inh hb
    obtain start | ⟨d, hd, hks, above, rfl⟩ := (inh b).mp hb
    · exact Or.inl (List.mem_map.mp start)
    · obtain ⟨P', hP', same⟩ := List.mem_map.mp (labels ▸ hks)
      obtain ⟨inherits', c', -, hc', final⟩ := phases P' hP'
      refine Or.inr ⟨P', hP', same ▸ above, ?_⟩
      rw [final]
      change d.2 ∈ c'.provides
      rw [(collectPhase_own typed hc').2, mem_ofLabel, same]
      exact hd
  refine ⟨?_, ?_, ?_, ?_, ?_, ?_, ?_, ?_, ?_, ?_⟩
  · rw [← labels, List.pairwise_map] at sorted
    exact sorted
  · intro P hP b hb
    obtain ⟨inherits, c, inh, hc, final⟩ := phases P hP
    rw [final] at hb
    obtain hb | ⟨-, -, none⟩ :=
      (collectPhase_sourced hc).requires b (mem_finalPhase_requires.mp hb).1
    · exact inherited P hP inherits b inh hb
    · cases none
  · intro P hP b hb P' hP' b' hb' name
    have same := distinct.declared _ (own P hP b hb) _ (own P' hP' b' hb') name
    exact Prod.mk.inj same
  · exact fun P hP b hb i hi => distinct.start _ (own P hP b hb) i hi
  · exact fun P hP b hb t => declared_homed typed placeable _ (own P hP b hb) t
  · intro P hP h hh
    obtain ⟨inherits, c, -, hc, final⟩ := phases P hP
    rw [final] at hh
    exact refreshed_label typed operands placeable hc h (refreshed_finalPhase h hh)
  · intro P hP x hx
    obtain ⟨inherits, c, -, hc, final⟩ := phases P hP
    rw [final] at hx ⊢
    have remains : x ∈ (remaining c).ast.uses := uses_of_removeUnused hx
    have still := uses_subset_stillRequire remains
    obtain builtin | given | provides | requires :=
      collectPhase_uses hc x (uses_of_removeUnused (uses_of_clearEmpty remains))
    · exact Or.inl builtin
    · simp [containsVarOfName] at given
    · exact Or.inr (containsVarOfName_append.mpr (Or.inr provides))
    · exact Or.inr (containsVarOfName_append.mpr
        (Or.inl (stillRequired_iff.mpr ⟨requires, fun _ => still⟩)))
  · intro P hP x hx
    obtain ⟨inherits, c, inh, hc, final⟩ := phases P hP
    rw [final] at hx ⊢
    rw [finalPhase_ast, implied_removeUnused, remaining, implied_clearEmpty,
      implied_removeUnused] at hx
    refine ((collectPhase_sourced hc).implied x hx).imp_right fun loop => ?_
    refine stillRequired_iff.mpr (implied_required distinct hc (fun b hb => ?_) (fun b hb => ?_) loop)
    · refine (inherited P hP inherits b inh hb).imp_right fun above => ?_
      obtain ⟨P', hP', -, hb'⟩ := above
      exact ⟨P'.label, own P' hP' b hb'⟩
    · rw [(collectPhase_own typed hc).2, mem_ofLabel] at hb
      exact ⟨_, hb⟩
  · intro P hP x hx
    obtain ⟨inherits, c, -, hc, final⟩ := phases P hP
    rw [final] at hx ⊢
    exact stillRequired_iff.mpr (steps_finalPhase.mp hx).2
  · intro P hP x hx
    obtain ⟨inherits, c, -, hc, final⟩ := phases P hP
    rw [final] at hx ⊢
    rw [finalPhase_ast, Stmt.binds_removeUnused] at hx
    have collected := Stmt.binds_of_clearEmpty hx
    rw [Stmt.binds_removeUnused] at collected
    exact (collectPhase_sourced hc).binds x collected

end Wiring

section Prepared

theorem filter_dedup {α : Type*} [DecidableEq α] (q : α → Bool) (l : List α) :
    (l.filter q).dedup = l.dedup.filter q := by
  induction l with
  | nil => rfl
  | cons a l ih =>
      by_cases later : a ∈ l
      · rw [List.dedup_cons_of_mem later, ← ih]
        cases keep : q a with
        | false => rw [List.filter_cons_of_neg (by simp [keep])]
        | true =>
            rw [List.filter_cons_of_pos keep,
              List.dedup_cons_of_mem (List.mem_filter.mpr ⟨later, keep⟩)]
      · rw [List.dedup_cons_of_notMem later]
        cases keep : q a with
        | false =>
            rw [List.filter_cons_of_neg (by simp [keep]), List.filter_cons_of_neg (by simp [keep]),
              ih]
        | true =>
            rw [List.filter_cons_of_pos keep, List.filter_cons_of_pos keep,
              List.dedup_cons_of_notMem fun h => later (List.mem_filter.mp h).1, ih]

variable {L V : Type} [LinearOrder L] [BoundedOrder L] {inputs : List (VarName × Ty L)}
  {runRemotely : L → Bool} {ps : List (Prephase L)} {value : VarName → V}

/-- What phases need for some of them to run at other processes. -/
structure Distributable (runRemotely : L → Bool) (ps : List (Prephase L)) : Prop where
  /-- The objects of a remote variable are only sent to the phase of their label. -/
  own : ∀ P ∈ ps, runRemotely P.label = true → ∀ b ∈ P.requires, b.name ∈ P.ast.toPhase.reads →
    b.handle = none
  /-- A phase sends back what it provides, and not what it assigns besides. -/
  handed : ps.Pairwise fun P Q => ∀ b ∈ P.requires, b.handle = none →
    b.name ∈ P.ast.toPhase.assigned → ∀ b' ∈ Q.requires, b'.name ≠ b.name
  /-- A phase that accompanies writes has the tombstone. -/
  accompanied : ∀ P ∈ ps, Builtin.tombstoneName ∈ P.ast.implied →
    containsVarOfName Builtin.tombstoneName (P.requires ++ P.provides) = true
  /-- The constants are not assigned. -/
  constants : ∀ P ∈ ps, ∀ x ∈ P.ast.direct, Builtin.isBuiltinVar x = false

namespace Wired

theorem eq_of_label (wired : Wired inputs ps) {P Q : Prephase L} (hP : P ∈ ps) (hQ : Q ∈ ps)
    (same : P.label = Q.label) : P = Q := by
  have distinct : (ps.map Prephase.label).Nodup :=
    List.pairwise_map.mpr (wired.sorted.imp fun h => h.ne')
  exact List.inj_on_of_nodup_map distinct hP hQ same

/-- The holder of a variable that a phase binds. -/
theorem holders_provided (wired : Wired inputs ps) {P : Prephase L} (hP : P ∈ ps)
    {b : VarBinding L} (hb : b ∈ P.provides) :
    ∃ o, (allStore (inputs.map Prod.fst) value ps).holders b.name = b.holder o := by
  have only : ∀ b', (∃ P' ∈ ps, b' ∈ P'.provides) → b'.name = b.name → b' = b := by
    rintro b' ⟨P', hP', hb'⟩ name
    exact (wired.named P' hP' b' hb' P hP b hb name).2
  have listed : b ∈ transactionHolders ps := mem_transactionHolders.mpr ⟨P, hP, hb⟩
  have among : ∀ b', b' ∈ (withNext ps).flatMap provided ∨ b' ∈ (withNext ps).flatMap owned →
      ∃ P' ∈ ps, b' ∈ P'.provides := fun b' h =>
    mem_transactionHolders.mp (List.mem_append.mpr h)
  have free : b.name ∉ inputs.map Prod.fst := by
    intro input
    obtain ⟨i, hi, name⟩ := List.mem_map.mp input
    refine wired.start P hP b hb ⟨i.1, i.2, ⊤, .localVar⟩ ?_ name
    exact List.mem_append_right _ (List.mem_map.mpr ⟨i, hi, rfl⟩)
  simp only [allStore, if_neg free]
  split
  · rename_i b' found
    have name : b'.name = b.name := by simpa using List.find?_some found
    exact ⟨false, by rw [only b' (among b' (Or.inl (List.mem_of_find?_eq_some found))) name]⟩
  · rename_i unprovided
    split
    · rename_i b' found
      have name : b'.name = b.name := by simpa using List.find?_some found
      exact ⟨true, by rw [only b' (among b' (Or.inr (List.mem_of_find?_eq_some found))) name]⟩
    · rename_i unowned
      obtain here | here := List.mem_append.mp listed
      · simpa using List.find?_eq_none.mp unprovided b here
      · simpa using List.find?_eq_none.mp unowned b here

theorem kind_provided (wired : Wired inputs ps) {P : Prephase L} (hP : P ∈ ps) {b : VarBinding L}
    (hb : b ∈ P.provides) : (allStore (inputs.map Prod.fst) value ps).kind b.name = b.handle := by
  obtain ⟨o, holder⟩ := wired.holders_provided hP hb
  rw [Mem.kind, holder, handleType_holder]

/-- The inputs are not remote. -/
theorem kind_start (wired : Wired inputs ps) {i : TypeBinding L L} (hi : i ∈ startBindings inputs) :
    (allStore (inputs.map Prod.fst) value ps).kind i.name = none := by
  have other : ∀ b ∈ transactionHolders ps, b.name ≠ i.name := by
    intro b hb name
    obtain ⟨P, hP, hb⟩ := mem_transactionHolders.mp hb
    exact wired.start P hP b hb i hi name.symm
  have unprovided : ((withNext ps).flatMap provided).find? (fun b => b.name = i.name) = none :=
    List.find?_eq_none.mpr fun b hb => by simpa using other b (List.mem_append_left _ hb)
  have unowned : ((withNext ps).flatMap owned).find? (fun b => b.name = i.name) = none :=
    List.find?_eq_none.mpr fun b hb => by simpa using other b (List.mem_append_right _ hb)
  simp only [Mem.kind, allStore, unprovided, unowned]
  split <;> rfl

theorem kind_names (wired : Wired inputs ps) {P : Prephase L} (hP : P ∈ ps) {b : VarBinding L}
    (hb : b ∈ P.requires ++ P.provides) {t : Ty L}
    (kind : (allStore (inputs.map Prod.fst) value ps).kind b.name = some t) :
    b.handle = some t := by
  obtain hb | hb := List.mem_append.mp hb
  · obtain ⟨i, hi, rfl⟩ | ⟨P', hP', -, hb⟩ := wired.requires P hP b hb
    · have input : (allStore (inputs.map Prod.fst) value ps).kind i.name = none := wired.kind_start hi
      exact absurd (kind.symm.trans input) (by simp)
    · exact (wired.kind_provided hP' hb).symm.trans kind
  · exact (wired.kind_provided hP hb).symm.trans kind

theorem kind_required (wired : Wired inputs ps) {P : Prephase L} (hP : P ∈ ps) {b : VarBinding L}
    (hb : b ∈ P.requires) {t : Ty L} (handle : b.handle = some t) :
    (allStore (inputs.map Prod.fst) value ps).kind b.name = some t := by
  obtain ⟨i, hi, rfl⟩ | ⟨P', hP', -, hb⟩ := wired.requires P hP b hb
  · have location : i.location = .localVar := by
      simp only [startBindings, List.mem_append, List.mem_cons, List.mem_map] at hi
      obtain ((rfl | rfl | rfl | hi) | ⟨input, -, rfl⟩) := hi
      · rfl
      · rfl
      · rfl
      · cases hi
      · rfl
    obtain ⟨name, type, label, _⟩ := i
    cases location
    cases handle
  · rw [wired.kind_provided hP' hb, handle]

/-- The store of a phase has the maps of its label that the store of the transaction has. -/
theorem aligned (wired : Wired inputs ps) {next : Prephase L × List (VarBinding L)}
    (hn : next ∈ withNext ps) :
    Phase.ofMapLabel next.1.label (remoteMaps (transactionHolders ps)) =
      Phase.ofMapLabel next.1.label (toRunnable (transactionHolders ps) next).maps := by
  have hP := (mem_withNext hn).1
  change List.filter _ _ = List.filter _ (remoteMaps ((transactionHolders ps).filter fun b =>
    b.name ∈ (toRunnable (transactionHolders ps) next).names))
  rw [remoteMaps, remoteMaps, ← filter_dedup, ← filter_dedup, List.filter_filterMap,
    List.filter_filterMap, List.filterMap_filter]
  congr 1
  apply List.filterMap_congr
  intro b hb
  split
  · rfl
  · rename_i unnamed
    cases handle : b.handle with
    | none => rfl
    | some t =>
        obtain ⟨P', hP', hb'⟩ := mem_transactionHolders.mp hb
        have home := wired.homed P' hP' b hb' t handle
        have other : P'.label ≠ next.1.label := by
          intro same
          have own := wired.eq_of_label hP' hP same
          rw [own] at hb'
          exact unnamed (decide_eq_true (mem_names.mpr ⟨b, List.mem_append_right _ hb', rfl⟩))
        simp [home, other]

/-- A phase works on the variables of its store. -/
theorem within (wired : Wired inputs ps) (distributable : Distributable runRemotely ps)
    {next : Prephase L × List (VarBinding L)} (hn : next ∈ withNext ps) :
    ((toRunnable (transactionHolders ps) next).ast.forStore (remoteMaps (transactionHolders ps))).Within
      ((toRunnable (transactionHolders ps) next).region
        (Phase.mapsAt runRemotely (toRunnable (transactionHolders ps) next))) := by
  have hP := (mem_withNext hn).1
  have named : ∀ {x bindings}, containsVarOfName x bindings = true →
      bindings ⊆ next.1.requires ++ next.1.provides →
      x ∈ (toRunnable (transactionHolders ps) next).names := by
    intro x bindings contains sub
    obtain ⟨b, hb, name⟩ := containsVarOfName_iff.mp contains
    exact mem_names.mpr ⟨b, sub hb, name⟩
  have uses : ∀ x ∈ next.1.ast.uses, Builtin.isBuiltinVar x = true ∨
      x ∈ (toRunnable (transactionHolders ps) next).names := fun x hx =>
    (wired.uses next.1 hP x hx).imp_right fun used => named used (List.Subset.refl _)
  have implied : ∀ x ∈ next.1.ast.implied, x ∈ (toRunnable (transactionHolders ps) next).names := by
    intro x hx
    obtain rfl | required := wired.implied next.1 hP x hx
    · exact named (distributable.accompanied next.1 hP hx) (List.Subset.refl _)
    · exact named required (List.subset_append_left _ _)
  have binds : ∀ x ∈ next.1.ast.binds, x ∈ (toRunnable (transactionHolders ps) next).bound :=
    fun x hx => mem_bound.mpr (containsVarOfName_iff.mp (wired.binds next.1 hP x hx))
  apply toPhase_within
  · exact uses
  · intro x hx
    obtain bound | used | follows := reads_toPhase hx
    · exact Or.inr ⟨RunnablePhase.bound_names (binds x bound), hx⟩
    · exact (uses x used).imp_right fun h => ⟨h, hx⟩
    · exact Or.inr ⟨implied x follows, hx⟩
  · exact fun x hx => ⟨implied x hx, implied_reads hx⟩
  · exact fun x hx => named (wired.steps next.1 hP x hx) (List.subset_append_left _ _)
  · exact distributable.constants next.1 hP
  · intro x hx
    have direct := direct_of_assigned hx
    refine ⟨(uses x (Stmt.uses_of_direct direct)).resolve_left ?_, hx⟩
    simp [distributable.constants next.1 hP x direct]
  · exact fun x hx => ⟨binds x hx, binds_reads hx⟩
  · intro h hh stored remote
    have own := wired.refreshed next.1 hP h hh
    change h.yield ∈ Phase.ofMapLabel next.1.label _
    rw [← wired.aligned hn]
    exact List.mem_filter.mpr ⟨stored, decide_eq_true own⟩

/-- What an earlier phase refers to no later one binds, and what it binds and a later one requires
it provides. -/
theorem apart (wired : Wired inputs ps) {P Q : Prephase L} (hP : P ∈ ps) (hQ : Q ∈ ps)
    (order : Q.label < P.label) {b b' : VarBinding L} (hb' : b' ∈ Q.provides)
    (hb : b ∈ P.requires ++ P.provides) : b.name ≠ b'.name := by
  intro name
  obtain hb | hb := List.mem_append.mp hb
  · obtain ⟨i, hi, rfl⟩ | ⟨P', hP', above, hb⟩ := wired.requires P hP b hb
    · exact wired.start Q hQ b' hb' i hi name
    · have same := (wired.named P' hP' b hb Q hQ b' hb' name).1
      exact absurd (order.trans above) (same ▸ lt_irrefl _)
  · have same := (wired.named P hP b hb Q hQ b' hb' name).1
    exact absurd order (same ▸ lt_irrefl _)

/-- The phases of a transaction are prepared to run at other processes. -/
theorem prepared (wired : Wired inputs ps) (distributable : Distributable runRemotely ps) :
    Prepared runRemotely (remoteMaps (transactionHolders ps))
      (allStore (inputs.map Prod.fst) value ps) (processed ps) := by
  have members : ∀ p ∈ processed ps, ∃ next ∈ withNext ps,
      toRunnable (transactionHolders ps) next = p := fun p hp => List.mem_map.mp hp
  have ordered := withNext_pairwise (wired.sorted.and distributable.handed)
  refine ⟨?_, ?_, ?_, ?_, ?_, ?_, ?_, ?_⟩
  · intro p hp
    obtain ⟨next, hn, rfl⟩ := members p hp
    exact wired.within distributable hn
  · intro p hp _ t ht
    obtain ⟨next, hn, rfl⟩ := members p hp
    rw [show (toRunnable (transactionHolders ps) next).ast = next.1.ast.toPhase from rfl,
      refreshed_toPhase] at ht
    obtain ⟨h, hh, rfl⟩ := List.mem_map.mp ht
    exact wired.refreshed next.1 (mem_withNext hn).1 h hh
  · intro p hp x hx reads t kind remote
    obtain ⟨next, hn, rfl⟩ := members p hp
    have hP := (mem_withNext hn).1
    obtain ⟨b, hb, rfl⟩ := mem_names.mp hx
    have handle := wired.kind_names hP hb kind
    -- a remote phase reads no remote variable of another phase
    have bound : b ∈ next.1.provides := by
      refine (List.mem_append.mp hb).resolve_left fun required => ?_
      rw [distributable.own next.1 hP remote b required reads] at handle
      cases handle
    have stored : t ∈ remoteMaps (transactionHolders ps) :=
      List.mem_dedup.mpr (List.mem_filterMap.mpr
        ⟨b, mem_transactionHolders.mpr ⟨next.1, hP, bound⟩, handle⟩)
    change t ∈ Phase.ofMapLabel next.1.label _
    rw [← wired.aligned hn]
    exact List.mem_filter.mpr ⟨stored, decide_eq_true (wired.homed next.1 hP b bound t handle)⟩
  · intro p hp _
    obtain ⟨next, hn, rfl⟩ := members p hp
    exact wired.aligned hn
  · refine List.pairwise_map.mpr (ordered.imp_of_mem fun {p q} hp hq => ?_)
    rintro ⟨⟨order, -⟩, -⟩ x hx bound
    obtain ⟨b, hb, rfl⟩ := mem_names.mp hx
    obtain ⟨b', hb', name⟩ := mem_bound.mp bound
    exact wired.apart (mem_withNext hp).1 (mem_withNext hq).1 order hb' hb name.symm
  · refine List.pairwise_map.mpr (ordered.imp_of_mem fun {p q} hp hq => ?_)
    rintro ⟨-, known⟩ x hx required
    obtain ⟨b, hb, rfl⟩ := mem_bound.mp hx
    obtain ⟨b', hb', name⟩ := List.mem_map.mp required
    have later := (List.mem_filter.mp hb').1
    have same : b' = b := by
      obtain ⟨i, hi, rfl⟩ | ⟨P', hP', -, provides⟩ := wired.requires _ (mem_withNext hq).1 b' later
      · exact absurd name (wired.start _ (mem_withNext hp).1 b hb i hi)
      · exact (wired.named P' hP' b' provides _ (mem_withNext hp).1 b hb name).2
    exact List.mem_map.mpr
      ⟨b, List.mem_filter.mpr ⟨hb, decide_eq_true (known b (same ▸ later))⟩, rfl⟩
  · refine List.pairwise_map.mpr (ordered.imp_of_mem fun {p q} hp hq => ?_)
    rintro ⟨⟨order, handed⟩, -⟩ x hx hx'
    have hP := (mem_withNext hp).1
    have direct := direct_of_assigned hx
    obtain ⟨b, hb, rfl⟩ : ∃ b ∈ p.1.requires ++ p.1.provides, b.name = x := by
      obtain builtin | used := wired.uses _ hP x (Stmt.uses_of_direct direct)
      · rw [distributable.constants _ hP x direct] at builtin
        cases builtin
      · exact containsVarOfName_iff.mp used
    obtain hb | hb := List.mem_append.mp hb
    · cases handle : b.handle with
      | some t => exact Or.inr (by rw [wired.kind_required hP hb handle]; rfl)
      | none =>
          obtain ⟨b', hb', name⟩ := mem_names.mp hx'
          obtain hb' | hb' := List.mem_append.mp hb'
          · exact absurd name (handed b hb handle hx b' hb')
          · exact absurd name.symm (wired.apart hP (mem_withNext hq).1 order hb'
              (List.mem_append_left _ hb))
    · exact Or.inl (mem_bound.mpr ⟨b, hb, rfl⟩)
  · intro p hp x hx
    obtain ⟨next, hn, rfl⟩ := members p hp
    obtain ⟨b, hb, rfl⟩ := mem_bound.mp hx
    obtain ⟨o, holder⟩ := wired.holders_provided (mem_withNext hn).1 hb
    rw [holder, fresh_holder]

end Wired

end Prepared

section Results

variable {L V F Sh : Type} [LinearOrder L] [BoundedOrder L] [Inhabited V]

end Results

section FourLabels

open Inference (FourLabels causal strong handlesOnly qName zName)

def strongInt : Ty FourLabels := .handle strong .int []

def causalInt : Ty FourLabels := .handle causal .int []

/-- `remote x = h, var a = x, remote z = q, z = a`. -/
def copyOver : Parsed.Stmt FourLabels :=
  .letRemote Inference.xName hName <| .letIn aName (.varReference Inference.xName) <|
    .letRemote zName qName <| .assignment (.var zName) aName

def copyOverInferred : Statement FourLabels FourLabels :=
  .letRemote strong ⟨strong, .int, Inference.xName, ⟨⊤, strongInt, hName⟩⟩ <|
    .letIn strong ⟨strong, .int, aName, ⟨strong, .int, .varReference Inference.xName⟩⟩ <|
      .letRemote causal ⟨causal, .int, zName, ⟨⊤, causalInt, qName⟩⟩ <|
        .assignment causal (.var ⟨causal, .int, zName⟩) ⟨strong, .int, aName⟩

def copyOverInputs : List (VarName × Ty FourLabels) := [(hName, strongInt), (qName, causalInt)]

def copyOverPhases : List (Prephase FourLabels) :=
  (splitComputation .insertion copyOverInputs copyOverInferred).toOption.getD []

theorem copyOver_accepted :
    Inference.Accepted .insertion handlesOnly (Lookup.first _ _) copyOverInputs copyOver
      copyOverInferred :=
  ⟨_, rfl, by decide⟩

theorem copyOver_distinct : Distinct copyOverInputs copyOverInferred := ⟨by decide, by decide⟩

theorem copyOver_placeable :
    Placeable ((startBindings copyOverInputs).map .type) (declared copyOverInferred) ⊤ []
      copyOverInferred := by
  have own : ∀ {l : FourLabels}, ∀ k, (Ty.handle l .int []).label = some k → FlowsTo k l := by
    intro l k same
    cases same
    exact le_rfl
  refine ⟨le_top, fun _ _ => le_top, own, le_top, ?_, le_top, fun _ _ => le_top, own, fun _ => le_top⟩
  exact Or.inr (Or.inr (Or.inr ⟨_, List.mem_singleton_self _, rfl, by decide⟩))

theorem copyOver_distributable : Distributable (· ≠ ⊤) copyOverPhases :=
  ⟨by decide, by decide, by decide, by decide⟩

theorem copyOver_split :
    splitComputation .insertion copyOverInputs copyOverInferred = .ok copyOverPhases := by decide

/-- The label of what is the same everywhere. -/
local instance : Bot FourLabels := ⟨0⟩

end FourLabels

end MixT.Split
