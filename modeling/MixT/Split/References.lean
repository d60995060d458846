import MixT.Split.Running

/-! # The variables that a phase refers to

What the passes over a phase do to the variables that it names, reads and steps over, and
what collecting a phase makes of its requirements. -/

namespace MixT.Split

open Library

section Names

variable {L : Type*} {requires : List (VarBinding L)}

theorem containsVarOfName_iff {x : VarName} :
    containsVarOfName x requires = true ↔ ∃ b ∈ requires, b.name = x := by
  simp [containsVarOfName]

@[simp] theorem containsVarOfName_cons {x : VarName} {b : VarBinding L} :
    containsVarOfName x (b :: requires) = true ↔ b.name = x ∨ containsVarOfName x requires = true := by
  simp [containsVarOfName]

@[simp] theorem containsVarOfName_append {x : VarName} {others : List (VarBinding L)} :
    containsVarOfName x (requires ++ others) = true ↔
      containsVarOfName x requires = true ∨ containsVarOfName x others = true := by
  simp [containsVarOfName]

/-- What the removed ifs that stand in other removed ifs test. -/
def innerTests : Stmt L → List VarName
  | .letIn _ _ body => innerTests body
  | .letRemote _ _ body => innerTests body
  | .ifThen _ _ t e =>
      if (clearEmpty t).ast.isEmptySequence && (clearEmpty e).ast.isEmptySequence then
        (clearEmpty t).removeFromRequire ++ (clearEmpty e).removeFromRequire ++
          (innerTests t ++ innerTests e)
      else innerTests t ++ innerTests e
  | .whileLoop _ _ _ body => innerTests body
  | .forEach _ _ body => innerTests body
  | .cons first rest => innerTests first ++ innerTests rest
  | _ => []

section RemoveUnused

theorem steps_removeUnused (s : Stmt L) :
    (removeUnused requires s).steps = s.steps.filter fun x => containsVarOfName x requires := by
  induction s with
  | incrementOccurance o x =>
      by_cases h : containsVarOfName x requires = true <;> simp [removeUnused, Stmt.steps, h]
  | incrementRemoteOccurance o x =>
      by_cases h : containsVarOfName x requires = true <;> simp [removeUnused, Stmt.steps, h]
  | refreshRemoteOccurance o h => unfold removeUnused; split <;> simp [Stmt.steps]
  | _ => simp_all [removeUnused, Stmt.steps]

theorem implied_removeUnused (s : Stmt L) : (removeUnused requires s).implied = s.implied := by
  induction s with
  | incrementOccurance o x => unfold removeUnused; split <;> rfl
  | incrementRemoteOccurance o x => unfold removeUnused; split <;> rfl
  | refreshRemoteOccurance o h => unfold removeUnused; split <;> rfl
  | _ => simp_all [removeUnused, Stmt.implied]

theorem uses_of_removeUnused {s : Stmt L} {x : VarName} (h : x ∈ (removeUnused requires s).uses) :
    x ∈ s.uses := by
  induction s with
  | incrementOccurance o y =>
      unfold removeUnused at h
      split at h <;> simp [Stmt.uses] at h
  | incrementRemoteOccurance o y =>
      unfold removeUnused at h
      split at h <;> simp [Stmt.uses] at h
  | refreshRemoteOccurance o y =>
      unfold removeUnused at h
      split at h
      · exact h
      · simp [Stmt.uses] at h
  | _ => grind [removeUnused, Stmt.uses]

/-- What a phase requires it goes on to name. -/
theorem uses_removeUnused {s : Stmt L} {x : VarName} (required : containsVarOfName x requires = true)
    (h : x ∈ s.uses) : x ∈ (removeUnused requires s).uses := by
  induction s with
  | refreshRemoteOccurance o y =>
      obtain rfl : x = y.var := by simpa [Stmt.uses] using h
      simp [removeUnused, required, Stmt.uses]
  | _ => grind [removeUnused, Stmt.uses]

theorem refreshed_of_removeUnused {s : Stmt L} {h : VarRef Unit L}
    (hh : h ∈ (removeUnused requires s).refreshed) : containsVarOfName h.var requires = true := by
  induction s with
  | incrementOccurance o x =>
      unfold removeUnused at hh
      split at hh <;> simp [Stmt.refreshed] at hh
  | incrementRemoteOccurance o x =>
      unfold removeUnused at hh
      split at hh <;> simp [Stmt.refreshed] at hh
  | refreshRemoteOccurance o y =>
      unfold removeUnused at hh
      split at hh
      · simp_all [Stmt.refreshed]
      · simp [Stmt.refreshed] at hh
  | _ => grind [removeUnused, Stmt.refreshed]

theorem uses_removeUnused_all {s : Stmt L}
    (all : ∀ h ∈ s.refreshed, containsVarOfName h.var requires = true) :
    (removeUnused requires s).uses = s.uses := by
  induction s with
  | incrementOccurance o x => unfold removeUnused; split <;> rfl
  | incrementRemoteOccurance o x => unfold removeUnused; split <;> rfl
  | refreshRemoteOccurance o h => simp [removeUnused, all h (by simp [Stmt.refreshed])]
  | _ => grind [removeUnused, Stmt.uses, Stmt.refreshed]

theorem Stmt.uses_of_refreshed {s : Stmt L} {h : VarRef Unit L} (hh : h ∈ s.refreshed) :
    h.var ∈ s.uses := by
  induction s with
  | _ => grind [Stmt.refreshed, Stmt.uses]

end RemoveUnused

section ClearEmpty

theorem Stmt.steps_of_empty {s : Stmt L} (h : s.isEmptySequence = true) : s.steps = [] := by
  induction s with
  | nil => rfl
  | cons first rest ihf ihr =>
      simp only [isEmptySequence, countSequence, Nat.add_eq_zero_iff, decide_eq_true_eq] at h ihf ihr
      simp [steps, ihf h.1, ihr h.2]
  | _ => simp [isEmptySequence, countSequence] at h

theorem Stmt.implied_of_empty {s : Stmt L} (h : s.isEmptySequence = true) : s.implied = [] := by
  apply List.eq_nil_iff_forall_not_mem.mpr
  intro x hx
  exact not_reads_of_empty h x (Or.inr hx)

theorem steps_clearEmpty (s : Stmt L) : (clearEmpty s).ast.steps = s.steps := by
  induction s with
  | ifThen o c t e iht ihe =>
      rw [clearEmpty_ifThen]
      split
      · rename_i empty
        simp only [Bool.and_eq_true] at empty
        rw [Stmt.steps, ← iht, ← ihe, Stmt.steps_of_empty empty.1, Stmt.steps_of_empty empty.2]
        rfl
      · simp [Stmt.steps, iht, ihe]
  | cons first rest ihf ihr => simp [clearEmpty, Stmt.steps, ihf, ihr]
  | _ => simp_all [clearEmpty, Stmt.steps]

theorem implied_clearEmpty (s : Stmt L) : (clearEmpty s).ast.implied = s.implied := by
  induction s with
  | ifThen o c t e iht ihe =>
      rw [clearEmpty_ifThen]
      split
      · rename_i empty
        simp only [Bool.and_eq_true] at empty
        rw [Stmt.implied, ← iht, ← ihe, Stmt.implied_of_empty empty.1, Stmt.implied_of_empty empty.2]
        rfl
      · simp [Stmt.implied, iht, ihe]
  | cons first rest ihf ihr => simp [clearEmpty, Stmt.implied, ihf, ihr]
  | _ => simp_all [clearEmpty, Stmt.implied]

theorem refreshed_of_clearEmpty {s : Stmt L} {h : VarRef Unit L}
    (hh : h ∈ (clearEmpty s).ast.refreshed) : h ∈ s.refreshed := by
  induction s with
  | ifThen o c t e iht ihe =>
      rw [clearEmpty_ifThen] at hh
      split at hh
      · simp [Stmt.refreshed] at hh
      · grind [Stmt.refreshed]
  | _ => grind [clearEmpty, Stmt.refreshed, Stmt.refreshed_collapse]

theorem uses_of_clearEmpty {s : Stmt L} {x : VarName} (h : x ∈ (clearEmpty s).ast.uses) :
    x ∈ s.uses := by
  induction s with
  | ifThen o c t e iht ihe =>
      rw [clearEmpty_ifThen] at h
      split at h
      · simp [Stmt.uses] at h
      · grind [Stmt.uses]
  | _ => grind [clearEmpty, Stmt.uses, Stmt.uses_collapse]

/-- A variable that a phase names is named by what remains or tested by a removed if. -/
theorem uses_clearEmpty {s : Stmt L} {x : VarName} (h : x ∈ s.uses) :
    x ∈ (clearEmpty s).ast.uses ∨ x ∈ (clearEmpty s).removeFromRequire ∨ x ∈ innerTests s := by
  induction s with
  | ifThen o c t e iht ihe =>
      by_cases empty : ((clearEmpty t).ast.isEmptySequence && (clearEmpty e).ast.isEmptySequence) = true
      · have emptied := Bool.and_eq_true_iff.mp empty
        have noT : x ∉ (clearEmpty t).ast.uses :=
          fun hx => Stmt.not_reads_of_empty emptied.1 x (Or.inl hx)
        have noE : x ∉ (clearEmpty e).ast.uses :=
          fun hx => Stmt.not_reads_of_empty emptied.2 x (Or.inl hx)
        grind [clearEmpty, innerTests, Stmt.uses]
      · grind [clearEmpty, innerTests, Stmt.uses]
  | _ => grind [clearEmpty, innerTests, Stmt.uses, Stmt.uses_collapse]

theorem uses_subset_stillRequire {s : Stmt L} {x : VarName} (h : x ∈ (clearEmpty s).ast.uses) :
    x ∈ (clearEmpty s).stillRequire := by
  induction s with
  | ifThen o c t e iht ihe =>
      by_cases empty : ((clearEmpty t).ast.isEmptySequence && (clearEmpty e).ast.isEmptySequence) = true
      · simp [clearEmpty, empty, Stmt.uses] at h
      · grind [clearEmpty, Stmt.uses]
  | assignment o target e => simpa [clearEmpty, Stmt.uses] using h
  | _ => grind [clearEmpty, Stmt.uses, Stmt.uses_collapse]

theorem stillRequire_subset {s : Stmt L} {x : VarName} (h : x ∈ (clearEmpty s).stillRequire) :
    x ∈ (clearEmpty s).ast.uses ∨ x ∈ (clearEmpty s).ast.steps := by
  induction s with
  | ifThen o c t e iht ihe =>
      by_cases empty : ((clearEmpty t).ast.isEmptySequence && (clearEmpty e).ast.isEmptySequence) = true
      · simp [clearEmpty, empty] at h
      · grind [clearEmpty, Stmt.uses, Stmt.steps]
  | _ => grind [clearEmpty, Stmt.uses, Stmt.steps, Stmt.uses_collapse, Stmt.steps_collapse]

end ClearEmpty

section LetAst

theorem uses_letAstIfOperation {o : Origin} {e : Expression L L} {ast : Stmt L} {x : VarName} :
    x ∈ (letAstIfOperation o e ast).uses ↔
      x ∈ ast.uses ∨ x ∈ formVars (e.form.mapLabel unlabel) ∧ ∃ name h args,
        e.form = .operation name h args ∧ x = h.var := by
  unfold letAstIfOperation
  split
  · rename_i name h args form
    simp only [Stmt.uses, form, formVars, Form.mapLabel, VarRef.mapLabel, List.mem_append,
      List.not_mem_nil, or_false, List.mem_cons, Form.operation.injEq, List.append_nil]
    constructor
    · rintro (hx | rfl)
      · exact Or.inl hx
      · exact Or.inr ⟨Or.inl rfl, name, h, args, ⟨rfl, rfl, rfl⟩, rfl⟩
    · rintro (hx | ⟨-, -, h', -, ⟨-, rfl, -⟩, rfl⟩)
      · exact Or.inl hx
      · exact Or.inr rfl
  · rename_i noOperation
    constructor
    · exact Or.inl
    · rintro (hx | ⟨-, name, h, args, form, -⟩)
      · exact hx
      · exact absurd form (noOperation name h args)

theorem reads_letAstIfOperation {o : Origin} {e : Expression L L} {ast : Stmt L} {x : VarName}
    (h : ast.Reads x ∨ x ∈ ast.steps) :
    (letAstIfOperation o e ast).Reads x ∨ x ∈ (letAstIfOperation o e ast).steps := by
  unfold letAstIfOperation
  split
  · simp only [Stmt.Reads, Stmt.uses, Stmt.implied, Stmt.steps, List.mem_append] at h ⊢
    tauto
  · exact h

end LetAst

end Names

section Collected

variable {L : Type*} [LinearOrder L] {k : L} {inherits provides : List (VarBinding L)}

theorem collectVar_reads {x : VarRef L L} {reqs : List (VarBinding L)}
    (h : collectVar k inherits provides x = .ok reqs) :
    (∀ b ∈ reqs, b.name = x.var) ∧ (Builtin.isBuiltinVar x.var = true ∨
      containsVarOfName x.var provides = true ∨ containsVarOfName x.var reqs = true) := by
  unfold collectVar at h
  split at h
  · rename_i builtin
    obtain rfl : [] = reqs := by simpa using h
    exact ⟨by simp, Or.inl builtin⟩
  split at h
  · simp at h
  split at h
  · rename_i provided
    obtain rfl : [] = reqs := by simpa using h
    obtain ⟨b, hb, hname, -⟩ := containsSubtype_iff.mp provided
    exact ⟨by simp, Or.inr (Or.inl (containsVarOfName_iff.mpr ⟨_, hb, hname⟩))⟩
  split at h
  · rename_i b found
    obtain rfl : [b] = reqs := by simpa using h
    have named : b.name = x.var := by
      have binds := List.find?_some found
      cases b with
      | type b =>
          simp only [VarBinding.binds, decide_eq_true_eq] at binds
          exact binds.1
      | loop name => simp [VarBinding.binds] at binds
    exact ⟨by simp [named], Or.inr (Or.inr (by simp [containsVarOfName, named]))⟩
  · simp at h

theorem collectVars_reads {xs : List (VarRef L L)} {reqs : List (VarBinding L)}
    (h : collectVars k inherits provides xs = .ok reqs) :
    (∀ b ∈ reqs, b.name ∈ xs.map VarRef.var) ∧ ∀ x ∈ xs.map VarRef.var,
      Builtin.isBuiltinVar x = true ∨ containsVarOfName x provides = true ∨
        containsVarOfName x reqs = true := by
  induction xs generalizing reqs with
  | nil =>
      obtain rfl : [] = reqs := by simpa [collectVars] using h
      simp
  | cons x rest ih =>
      obtain ⟨r, hr, h⟩ := except_bind_ok h
      obtain ⟨rs, hrs, h⟩ := except_bind_ok h
      obtain rfl : r ++ rs = reqs := by simpa using h
      obtain ⟨namesHere, readsHere⟩ := collectVar_reads hr
      obtain ⟨namesRest, readsRest⟩ := ih hrs
      simp only [containsVarOfName_append]
      constructor
      · intro b hb
        obtain hb | hb := List.mem_append.mp hb
        · simp [namesHere b hb]
        · exact List.mem_cons_of_mem _ (namesRest b hb)
      · intro y hy
        obtain rfl | hy := List.mem_cons.mp hy
        · tauto
        · have := readsRest y hy
          tauto

omit [LinearOrder L] in
theorem baseVar_unlabel (target : Target L L) :
    (target.mapLabel unlabel).baseVar = target.base.var := by
  cases target <;> rfl

theorem collectExpr_reads {e : Expression L L} {reqs : List (VarBinding L)}
    (h : collectExpr k inherits provides e = .ok reqs) :
    (∀ b ∈ reqs, b.name ∈ formVars (e.form.mapLabel unlabel)) ∧
      ∀ x ∈ formVars (e.form.mapLabel unlabel),
        Builtin.isBuiltinVar x = true ∨ containsVarOfName x provides = true ∨
          containsVarOfName x reqs = true := by
  obtain ⟨label, yield, form⟩ := e
  cases form with
  | varReference x => simpa [formVars, Form.mapLabel] using collectVar_reads h
  | fieldReference struct f =>
      simpa [formVars, Form.mapLabel, VarRef.mapLabel] using collectVar_reads h
  | constant i =>
      obtain rfl : [] = reqs := by simpa [collectExpr] using h
      simp [formVars, Form.mapLabel]
  | binOp op l r => simpa [formVars, Form.mapLabel, VarRef.mapLabel] using collectVars_reads h
  | generateTombstone =>
      obtain rfl : [] = reqs := by simpa [collectExpr] using h
      simp [formVars, Form.mapLabel]
  | isValid x => simpa [formVars, Form.mapLabel, VarRef.mapLabel] using collectVar_reads h
  | endorse l x => simp [collectExpr] at h
  | operation name x args =>
      have reads := collectVars_reads h
      simpa [formVars, Form.mapLabel, VarRef.mapLabel, Function.comp_def] using reads

/-- A collected phase names only variables that it is given, binds or requires. -/
theorem collectPhase_uses {o : Origin} {s : Statement L L} {c : Collected L}
    (h : collectPhase k inherits o provides s = .ok c) :
    ∀ x ∈ c.ast.uses, Builtin.isBuiltinVar x = true ∨ containsVarOfName x provides = true ∨
      containsVarOfName x c.provides = true ∨ containsVarOfName x c.requires = true := by
  induction s generalizing o provides c with
  | letIn label b body ih =>
      obtain ⟨rfl, -, reqs, c', hreqs, hbody, rfl⟩ | ⟨-, c', hbody, rfl⟩ := collectPhase_letIn h
      · obtain ⟨-, reads⟩ := collectExpr_reads hreqs
        have bodyReads := ih hbody
        intro x hx
        simp only [containsVarOfName_append, containsVarOfName_cons] at bodyReads ⊢
        obtain hx | hx := (uses_letAstIfOperation.mp hx).elim List.mem_append.mp fun h => Or.inl h.1
        · have := reads x hx
          tauto
        · have := bodyReads x hx
          tauto
      · intro x hx
        exact ih hbody x (by simpa [Stmt.uses] using hx)
  | letRemote label b body ih =>
      obtain ⟨rfl, -, reqs, c', hreqs, hbody, rfl⟩ |
        ⟨-, c', hbody, ⟨-, reqs, -, rfl⟩ | ⟨-, rfl⟩⟩ := collectPhase_letRemote h
      · obtain ⟨-, reads⟩ := collectVar_reads hreqs
        have bodyReads := ih hbody
        intro x hx
        simp only [containsVarOfName_append, containsVarOfName_cons] at bodyReads ⊢
        obtain rfl | hx := List.mem_cons.mp hx
        · have : Builtin.isBuiltinVar b.expr.var = true ∨ _ := reads
          simp only [VarRef.mapLabel]
          tauto
        · have := bodyReads x hx
          tauto
      · intro x hx
        have := ih hbody x (by simpa [Stmt.uses] using hx)
        simp only [containsVarOfName_append]
        tauto
      · exact ih hbody
  | operation label name hd args =>
      obtain ⟨-, reqs, hreqs, rfl⟩ | ⟨-, rfl⟩ := collectPhase_operation h
      · obtain ⟨-, reads⟩ := collectVars_reads hreqs
        intro x hx
        have named : x ∈ (hd :: args).map VarRef.var := by
          split at hx
          · simpa [Stmt.uses, VarRef.mapLabel, Function.comp_def] using hx
          · simp [Stmt.uses, VarRef.mapLabel] at hx ⊢
            tauto
        have := reads x named
        tauto
      · simp [Stmt.uses]
  | assignment label target e =>
      obtain ⟨-, reqs, hreqs, rfl⟩ | ⟨-, rfl⟩ := collectPhase_assignment h
      · obtain ⟨-, reads⟩ := collectVars_reads hreqs
        intro x hx
        have named : x ∈ [target.base, e].map VarRef.var := by
          simpa [Stmt.uses, baseVar_unlabel, VarRef.mapLabel] using hx
        have := reads x named
        tauto
      · split <;> simp [Stmt.uses]
  | ret label e =>
      obtain ⟨-, reqs, hreqs, rfl⟩ | ⟨-, rfl⟩ := collectPhase_ret h
      · obtain ⟨-, reads⟩ := collectVar_reads hreqs
        simp only [Stmt.uses, VarRef.mapLabel, List.mem_singleton, forall_eq]
        tauto
      · simp [Stmt.uses]
  | accompanyWrite label target =>
      obtain ⟨-, reqs, hreqs, rfl⟩ | ⟨-, rfl⟩ := collectPhase_accompanyWrite h
      · obtain ⟨-, reads⟩ := collectVar_reads hreqs
        simp only [Stmt.uses, baseVar_unlabel, List.mem_singleton, forall_eq]
        tauto
      · simp [Stmt.uses]
  | writeTombstone label e =>
      obtain ⟨-, reqs, hreqs, rfl⟩ | ⟨-, rfl⟩ := collectPhase_writeTombstone h
      · obtain ⟨-, reads⟩ := collectVar_reads hreqs
        simp only [Stmt.uses, VarRef.mapLabel, List.mem_singleton, forall_eq]
        tauto
      · simp [Stmt.uses]
  | ifThen label condition t e iht ihe =>
      obtain ⟨-, reqs, ct, ce, hreqs, ht, he, rfl⟩ | ⟨-, rfl⟩ := collectPhase_ifThen h
      · obtain ⟨-, reads⟩ := collectVar_reads hreqs
        intro x hx
        simp only [Stmt.uses, VarRef.mapLabel, List.mem_cons, List.mem_append] at hx
        simp only [containsVarOfName_append]
        obtain rfl | hx | hx := hx
        · tauto
        · have := iht ht x hx
          tauto
        · have := ihe he x hx
          tauto
      · simp [Stmt.uses]
  | whileLoop label name condition body ih =>
      obtain ⟨-, reqs, c', hreqs, hbody, rfl⟩ | ⟨-, -, -, c', hbody, rfl⟩ | ⟨-, -, rfl⟩ :=
        collectPhase_whileLoop h
      · obtain ⟨-, reads⟩ := collectVar_reads hreqs
        intro x hx
        simp only [Stmt.uses, VarRef.mapLabel, List.mem_cons] at hx
        simp only [containsVarOfName_append]
        obtain rfl | hx := hx
        · tauto
        · have := ih hbody x hx
          tauto
      · intro x hx
        have := ih hbody x hx
        simp only [containsVarOfName_append]
        tauto
      · simp [Stmt.uses]
  | nil label =>
      obtain rfl := collectPhase_nil h
      simp [Stmt.uses]
  | cons label first rest ihf ihr =>
      obtain ⟨cf, cr, hf, hr, rfl⟩ := collectPhase_cons h
      intro x hx
      simp only [Stmt.uses_collapse, Stmt.uses, List.mem_append] at hx
      simp only [containsVarOfName_append]
      obtain hx | hx := hx
      · have := ihf hf x hx
        tauto
      · have := ihr hr x hx
        tauto

/-- A collected phase refers to each variable that it requires. -/
theorem collectPhase_requires {o : Origin} {s : Statement L L} {c : Collected L}
    (h : collectPhase k inherits o provides s = .ok c) :
    ∀ b ∈ c.requires, c.ast.Reads b.name ∨ b.name ∈ c.ast.steps := by
  induction s generalizing o provides c with
  | letIn label b body ih =>
      obtain ⟨rfl, -, reqs, c', hreqs, hbody, rfl⟩ | ⟨-, c', hbody, rfl⟩ := collectPhase_letIn h
      · obtain ⟨named, -⟩ := collectExpr_reads hreqs
        intro r hr
        apply reads_letAstIfOperation
        simp only [Stmt.Reads, Stmt.uses, Stmt.implied, Stmt.steps, List.mem_append]
        obtain hr | hr := List.mem_append.mp hr
        · exact Or.inl (Or.inl (Or.inl (named r hr)))
        · have := ih hbody r hr
          simp only [Stmt.Reads] at this
          tauto
      · intro r hr
        have := ih hbody r hr
        simp only [Stmt.Reads, Stmt.uses, Stmt.implied, Stmt.steps, List.mem_append] at this ⊢
        tauto
  | letRemote label b body ih =>
      obtain ⟨rfl, -, reqs, c', hreqs, hbody, rfl⟩ |
        ⟨-, c', hbody, ⟨-, reqs, found, rfl⟩ | ⟨-, rfl⟩⟩ := collectPhase_letRemote h
      · obtain ⟨named, -⟩ := collectVar_reads hreqs
        intro r hr
        simp only [Stmt.Reads, Stmt.uses, Stmt.implied, Stmt.steps, List.mem_cons]
        obtain hr | hr := List.mem_append.mp hr
        · exact Or.inl (Or.inl (Or.inl (named r hr)))
        · have := ih hbody r hr
          simp only [Stmt.Reads] at this
          tauto
      · intro r hr
        simp only [Stmt.Reads, Stmt.uses, Stmt.implied, Stmt.steps, List.mem_append,
          List.mem_singleton]
        obtain hr | hr := List.mem_append.mp hr
        · obtain ⟨-, rfl⟩ | ⟨r', hr', rfl⟩ := found
          · simp at hr
          · obtain rfl := List.mem_singleton.mp hr
            have binds := List.find?_some hr'
            cases r with
            | type t =>
                simp only [VarBinding.binds, decide_eq_true_eq] at binds
                exact Or.inr (Or.inl binds.1)
            | loop name => simp [VarBinding.binds] at binds
        · have := ih hbody r hr
          simp only [Stmt.Reads] at this
          tauto
      · exact ih hbody
  | operation label name hd args =>
      obtain ⟨-, reqs, hreqs, rfl⟩ | ⟨-, rfl⟩ := collectPhase_operation h
      · obtain ⟨named, -⟩ := collectVars_reads hreqs
        intro r hr
        have := named r hr
        left
        left
        split
        · simpa [Stmt.uses, VarRef.mapLabel, Function.comp_def] using this
        · simp only [Stmt.uses, VarRef.mapLabel, List.map_map, Function.comp_def, List.mem_append]
          exact Or.inl this
      · simp
  | assignment label target e =>
      obtain ⟨-, reqs, hreqs, rfl⟩ | ⟨-, rfl⟩ := collectPhase_assignment h
      · obtain ⟨named, -⟩ := collectVars_reads hreqs
        intro r hr
        have := named r hr
        left
        left
        simpa [Stmt.uses, baseVar_unlabel, VarRef.mapLabel] using this
      · simp
  | ret label e =>
      obtain ⟨-, reqs, hreqs, rfl⟩ | ⟨-, rfl⟩ := collectPhase_ret h
      · obtain ⟨named, -⟩ := collectVar_reads hreqs
        intro r hr
        simp [Stmt.Reads, Stmt.uses, VarRef.mapLabel, named r hr]
      · simp
  | accompanyWrite label target =>
      obtain ⟨-, reqs, hreqs, rfl⟩ | ⟨-, rfl⟩ := collectPhase_accompanyWrite h
      · obtain ⟨named, -⟩ := collectVar_reads hreqs
        intro r hr
        simp [Stmt.Reads, Stmt.uses, baseVar_unlabel, named r hr]
      · simp
  | writeTombstone label e =>
      obtain ⟨-, reqs, hreqs, rfl⟩ | ⟨-, rfl⟩ := collectPhase_writeTombstone h
      · obtain ⟨named, -⟩ := collectVar_reads hreqs
        intro r hr
        simp [Stmt.Reads, Stmt.uses, VarRef.mapLabel, named r hr]
      · simp
  | ifThen label condition t e iht ihe =>
      obtain ⟨-, reqs, ct, ce, hreqs, ht, he, rfl⟩ | ⟨-, rfl⟩ := collectPhase_ifThen h
      · obtain ⟨named, -⟩ := collectVar_reads hreqs
        intro r hr
        simp only [Stmt.Reads, Stmt.uses, Stmt.implied, Stmt.steps, VarRef.mapLabel, List.mem_cons,
          List.mem_append] at hr ⊢
        obtain (hr | hr) | hr := hr
        · exact Or.inl (Or.inl (Or.inl (named r hr)))
        · have := iht ht r hr
          simp only [Stmt.Reads] at this
          tauto
        · have := ihe he r hr
          simp only [Stmt.Reads] at this
          tauto
      · simp
  | whileLoop label name condition body ih =>
      obtain ⟨-, reqs, c', hreqs, hbody, rfl⟩ | ⟨-, -, -, c', hbody, rfl⟩ | ⟨-, -, rfl⟩ :=
        collectPhase_whileLoop h
      · obtain ⟨named, -⟩ := collectVar_reads hreqs
        intro r hr
        simp only [Stmt.Reads, Stmt.uses, Stmt.implied, Stmt.steps, VarRef.mapLabel,
          List.mem_cons]
        obtain hr | hr := List.mem_append.mp hr
        · exact Or.inl (Or.inl (Or.inl (named r hr)))
        · have := ih hbody r hr
          simp only [Stmt.Reads] at this
          tauto
      · intro r hr
        simp only [Stmt.Reads, Stmt.uses, Stmt.implied, Stmt.steps, List.mem_cons]
        obtain hr | hr := List.mem_append.mp hr
        · have := ih hbody r hr
          simp only [Stmt.Reads] at this
          tauto
        · obtain rfl := List.mem_singleton.mp hr
          exact Or.inl (Or.inr (Or.inl rfl))
      · simp
  | nil label =>
      obtain rfl := collectPhase_nil h
      simp
  | cons label first rest ihf ihr =>
      obtain ⟨cf, cr, hf, hr, rfl⟩ := collectPhase_cons h
      intro r hr'
      simp only [Stmt.Reads, Stmt.uses_collapse, Stmt.implied_collapse, Stmt.steps_collapse,
        Stmt.uses, Stmt.implied, Stmt.steps, List.mem_append]
      obtain hr' | hr' := List.mem_append.mp hr'
      · have := ihf hf r hr'
        simp only [Stmt.Reads] at this
        tauto
      · have := ihr hr r hr'
        simp only [Stmt.Reads] at this
        tauto

end Collected

end MixT.Split
