import MixT.Split.Collect
import Mathlib.Data.List.Infix
import Mathlib.Order.MinMax

/-! # What each phase does

A statement is done in the phase of its label and in no other, and the bindings that a
phase provides are those of its own label. Both hold through every pass. -/

namespace MixT

section Concrete

variable {L : Type*} [LinearOrder L]

@[simp] theorem LabelAlgebra.concrete_meet (a b : L) :
    LabelAlgebra.concrete.meet a b = min a b := rfl

@[simp] theorem LabelAlgebra.concrete_conc (l : L) : LabelAlgebra.concrete.conc l = l := rfl

theorem LabelAlgebra.le_operationLabel_iff {pc handleLabel x : L} {h : VarRef L L}
    {args : List (VarRef L L)} :
    x ≤ LabelAlgebra.concrete.operationLabel pc h handleLabel args ↔
      x ≤ pc ∧ x ≤ handleLabel ∧ ∀ y ∈ h :: args, x ≤ y.label := by
  have fold : ∀ (args : List (VarRef L L)) (acc : L),
      x ≤ args.foldl (fun acc arg => min acc arg.label) acc ↔
        x ≤ acc ∧ ∀ y ∈ args, x ≤ y.label := by
    intro args
    induction args with
    | nil => simp
    | cons y rest ih =>
        intro acc
        simp only [List.foldl_cons, ih, le_min_iff, List.forall_mem_cons, and_assoc]
  simp only [operationLabel, argumentsMin, concrete_meet, concrete_conc, le_min_iff, fold,
    List.forall_mem_cons]
  tauto

/-- Where the operands flow to the handle, the operation has the lower of the labels of
the environment and of the handle. -/
theorem LabelAlgebra.operationLabel_eq {pc handleLabel : L} {h : VarRef L L}
    {args : List (VarRef L L)} (flows : ∀ y ∈ h :: args, FlowsTo y.label handleLabel) :
    LabelAlgebra.concrete.operationLabel pc h handleLabel args = min pc handleLabel := by
  refine eq_of_forall_le_iff fun x => ?_
  rw [le_operationLabel_iff, le_min_iff]
  exact ⟨fun h => ⟨h.1, h.2.1⟩, fun h => ⟨h.1, h.2, fun y hy => h.2.trans (flows y hy)⟩⟩

end Concrete

namespace Split

open Library

section Places

variable {L : Type*}

/-- The statements that one phase does, each with its place and its label. -/
def places : Origin → Statement L L → List (Origin × L)
  | o, .letIn l _ body => (o, l) :: places (0 :: o) body
  | o, .letRemote l _ body => (o, l) :: places (0 :: o) body
  | o, .operation l _ _ _ => [(o, l)]
  | o, .assignment l _ _ => [(o, l)]
  | o, .ret l _ => [(o, l)]
  | o, .accompanyWrite l _ => [(o, l)]
  | o, .writeTombstone l _ => [(o, l)]
  | o, .ifThen _ _ t e => places (0 :: o) t ++ places (1 :: o) e
  | o, .whileLoop _ _ _ body => places (0 :: o) body
  | _, .nil _ => []
  | o, .cons _ first rest => places (0 :: o) first ++ places (1 :: o) rest

/-- The binding that a let provides. -/
def localBinding (b : Binding L L (Expression L L)) : VarBinding L :=
  .type ⟨b.var, b.yield, b.label, .localVar⟩

/-- The binding that a remote let provides. -/
def remoteBinding (b : Binding L L (VarRef L L)) : VarBinding L :=
  .type ⟨b.var, b.expr.yield, b.label, .remoteVar⟩

/-- The bindings of a program, each with the label of the statement that makes it. -/
def declared : Statement L L → List (L × VarBinding L)
  | .letIn l b body => (l, localBinding b) :: declared body
  | .letRemote l b body => (l, remoteBinding b) :: declared body
  | .ifThen _ _ t e => declared t ++ declared e
  | .whileLoop l name _ body => declared body ++ [(l, .loop name)]
  | .cons _ first rest => declared first ++ declared rest
  | _ => []

theorem label_of_places {o : Origin} {s : Statement L L} :
    ∀ p ∈ places o s, p.2 ∈ s.labels := by
  induction s generalizing o with
  | letIn l b body ih =>
      simp only [places, Statement.labels, List.mem_cons, List.mem_append]
      rintro p (rfl | hp)
      · exact Or.inl rfl
      · exact Or.inr (Or.inr (Or.inr (ih p hp)))
  | letRemote l b body ih =>
      simp only [places, Statement.labels, List.mem_cons]
      rintro p (rfl | hp)
      · exact Or.inl rfl
      · exact Or.inr (Or.inr (Or.inr (ih p hp)))
  | ifThen l c t e iht ihe =>
      simp only [places, Statement.labels, List.mem_cons, List.mem_append]
      rintro p (hp | hp)
      · exact Or.inr (Or.inr (Or.inl (iht p hp)))
      · exact Or.inr (Or.inr (Or.inr (ihe p hp)))
  | whileLoop l name c body ih =>
      simp only [places, Statement.labels, List.mem_cons]
      exact fun p hp => Or.inr (Or.inr (ih p hp))
  | cons l first rest ihf ihr =>
      simp only [places, Statement.labels, List.mem_cons, List.mem_append]
      rintro p (hp | hp)
      · exact Or.inr (Or.inl (ihf p hp))
      · exact Or.inr (Or.inr (ihr p hp))
  | _ => simp [places, Statement.labels]

theorem label_of_declared {s : Statement L L} : ∀ d ∈ declared s, d.1 ∈ s.labels := by
  induction s with
  | letIn l b body ih =>
      simp only [declared, Statement.labels, List.mem_cons, List.mem_append]
      rintro d (rfl | hd)
      · exact Or.inl rfl
      · exact Or.inr (Or.inr (Or.inr (ih d hd)))
  | letRemote l b body ih =>
      simp only [declared, Statement.labels, List.mem_cons]
      rintro d (rfl | hd)
      · exact Or.inl rfl
      · exact Or.inr (Or.inr (Or.inr (ih d hd)))
  | ifThen l c t e iht ihe =>
      simp only [declared, Statement.labels, List.mem_cons, List.mem_append]
      rintro d (hd | hd)
      · exact Or.inr (Or.inr (Or.inl (iht d hd)))
      · exact Or.inr (Or.inr (Or.inr (ihe d hd)))
  | whileLoop l name c body ih =>
      simp only [declared, Statement.labels, List.mem_cons, List.mem_append, List.not_mem_nil,
        or_false]
      rintro d (hd | rfl)
      · exact Or.inr (Or.inr (ih d hd))
      · exact Or.inl rfl
  | cons l first rest ihf ihr =>
      simp only [declared, Statement.labels, List.mem_cons, List.mem_append]
      rintro d (hd | hd)
      · exact Or.inr (Or.inl (ihf d hd))
      · exact Or.inr (Or.inr (ihr d hd))
  | _ => simp [declared]

/-- The places inside a statement are below its own. -/
theorem places_suffix {o : Origin} {s : Statement L L} : ∀ p ∈ places o s, o <:+ p.1 := by
  have below : ∀ {i : Nat} {o : Origin} {s : Statement L L},
      (∀ p ∈ places (i :: o) s, i :: o <:+ p.1) → ∀ p ∈ places (i :: o) s, o <:+ p.1 :=
    fun h p hp => (List.suffix_cons _ _).trans (h p hp)
  induction s generalizing o with
  | letIn l b body ih =>
      simp only [places, List.forall_mem_cons]
      exact ⟨List.suffix_rfl, below ih⟩
  | letRemote l b body ih =>
      simp only [places, List.forall_mem_cons]
      exact ⟨List.suffix_rfl, below ih⟩
  | ifThen l c t e iht ihe =>
      simp only [places, List.mem_append]
      rintro p (hp | hp)
      · exact below iht p hp
      · exact below ihe p hp
  | whileLoop l name c body ih => exact below ih
  | cons l first rest ihf ihr =>
      simp only [places, List.mem_append]
      rintro p (hp | hp)
      · exact below ihf p hp
      · exact below ihr p hp
  | _ => simp [places]

theorem suffix_cons_inj {i j : Nat} {o p : Origin} (hi : i :: o <:+ p) (hj : j :: o <:+ p) :
    i = j := by
  have same : i :: o = j :: o := by
    obtain h | h := List.suffix_or_suffix_of_suffix hi hj
    · exact h.eq_of_length rfl
    · exact (h.eq_of_length rfl).symm
  simpa using same


theorem not_suffix_cons {i : Nat} {o : Origin} : ¬ i :: o <:+ o := by
  intro h
  have := h.length_le
  simp only [List.length_cons] at this
  omega

/-- The places inside two children of a statement are different. -/
theorem disjoint_children {o p : Origin} {s t : Statement L L} {l l' : L}
    (h : (p, l) ∈ places (0 :: o) s) (h' : (p, l') ∈ places (1 :: o) t) : False := by
  have below : 0 :: o <:+ p := places_suffix _ h
  have below' : 1 :: o <:+ p := places_suffix _ h'
  simpa using suffix_cons_inj below below'

/-- A place has one label. -/
theorem places_functional {o : Origin} {s : Statement L L} {p : Origin} {l l' : L}
    (h : (p, l) ∈ places o s) (h' : (p, l') ∈ places o s) : l = l' := by
  induction s generalizing o with
  | letIn m b body ih =>
      simp only [places, List.mem_cons, Prod.mk.injEq] at h h'
      obtain ⟨rfl, rfl⟩ | h := h <;> obtain ⟨h', rfl⟩ | h' := h'
      · rfl
      · exact absurd (places_suffix _ h') not_suffix_cons
      · exact absurd (h' ▸ places_suffix _ h) not_suffix_cons
      · exact ih h h'
  | letRemote m b body ih =>
      simp only [places, List.mem_cons, Prod.mk.injEq] at h h'
      obtain ⟨rfl, rfl⟩ | h := h <;> obtain ⟨h', rfl⟩ | h' := h'
      · rfl
      · exact absurd (places_suffix _ h') not_suffix_cons
      · exact absurd (h' ▸ places_suffix _ h) not_suffix_cons
      · exact ih h h'
  | ifThen m c t e iht ihe =>
      simp only [places, List.mem_append] at h h'
      obtain h | h := h <;> obtain h' | h' := h'
      · exact iht h h'
      · exact (disjoint_children h h').elim
      · exact (disjoint_children h' h).elim
      · exact ihe h h'
  | whileLoop m name c body ih => exact ih h h'
  | cons m first rest ihf ihr =>
      simp only [places, List.mem_append] at h h'
      obtain h | h := h <;> obtain h' | h' := h'
      · exact ihf h h'
      · exact (disjoint_children h h').elim
      · exact (disjoint_children h' h).elim
      · exact ihr h h'
  | _ => simp_all [places]

end Places

section OfLabel

variable {L α : Type*}

theorem kept_letAstIfOperation (o : Origin) (e : Expression L L) (ast : Stmt L) :
    (letAstIfOperation o e ast).kept = ast.kept := by
  unfold letAstIfOperation
  split <;> simp [Stmt.kept]

variable [DecidableEq L] {k : L} {xs ys : List (L × α)}

/-- The part of a list that belongs to one label. -/
def ofLabel (k : L) (xs : List (L × α)) : List α := (xs.filter fun x => x.1 = k).map Prod.snd

@[simp] theorem ofLabel_nil : ofLabel k ([] : List (L × α)) = [] := rfl

@[simp] theorem ofLabel_cons (x : L × α) :
    ofLabel k (x :: xs) = if x.1 = k then x.2 :: ofLabel k xs else ofLabel k xs := by
  by_cases h : x.1 = k <;> simp [ofLabel, h]

@[simp] theorem ofLabel_append : ofLabel k (xs ++ ys) = ofLabel k xs ++ ofLabel k ys := by
  simp [ofLabel]

theorem ofLabel_none (h : ∀ x ∈ xs, x.1 ≠ k) : ofLabel k xs = [] := by
  simpa [ofLabel] using h

theorem mem_ofLabel {x : α} : x ∈ ofLabel k xs ↔ (k, x) ∈ xs := by
  simp only [ofLabel, List.mem_map, List.mem_filter, decide_eq_true_eq]
  constructor
  · rintro ⟨⟨l, y⟩, ⟨h, rfl⟩, rfl⟩
    exact h
  · exact fun h => ⟨(k, x), ⟨h, rfl⟩, rfl⟩

end OfLabel

section Typed

variable {L : Type*} [LinearOrder L] [BoundedOrder L] {host : HostTypes L} {binder : L → Prop}
  {env : TypeEnv L L} {s : Statement L L}

/-- The labels of statements are below the label of the environment. -/
theorem typed_below (typed : Typed .concrete host binder env s) (o : Origin) :
    (∀ p ∈ places o s, p.2 ≤ env.pcLabel) ∧ ∀ d ∈ declared s, d.1 ≤ env.pcLabel := by
  induction s generalizing env o with
  | letIn l b body ih =>
      obtain ⟨-, -, -, -, rfl, hbody⟩ := typed
      obtain ⟨hp, hd⟩ := ih hbody (0 :: o)
      simp only [places, declared, List.forall_mem_cons]
      exact ⟨⟨min_le_right _ _, hp⟩, min_le_right _ _, hd⟩
  | letRemote l b body ih =>
      obtain ⟨-, -, handleLabel, ops, -, rfl, hbody⟩ := typed
      obtain ⟨hp, hd⟩ := ih hbody (0 :: o)
      simp only [places, declared, List.forall_mem_cons]
      exact ⟨⟨min_le_left _ _, fun p h => (hp p h).trans (min_le_left _ _)⟩, min_le_left _ _,
        fun d h => (hd d h).trans (min_le_left _ _)⟩
  | operation l name h args =>
      obtain ⟨ret, -, -, handleLabel, -, rfl⟩ := typed
      simpa [places, declared] using (LabelAlgebra.le_operationLabel_iff.mp le_rfl).1
  | assignment l target e =>
      obtain ⟨-, -, -, rfl⟩ := typed
      simp [places, declared]
  | ret l e =>
      obtain ⟨-, rfl⟩ := typed
      simp [places, declared]
  | accompanyWrite l target =>
      obtain ⟨-, e, -, rfl⟩ := typed
      simp [places, declared]
  | writeTombstone l e =>
      obtain ⟨-, -, c, rfl⟩ := typed
      simp [places, declared]
  | ifThen l c t e iht ihe =>
      obtain ⟨-, -, rfl, ht, he⟩ := typed
      obtain ⟨tp, td⟩ := iht ht (0 :: o)
      obtain ⟨ep, ed⟩ := ihe he (1 :: o)
      simp only [places, declared, List.mem_append]
      refine ⟨?_, ?_⟩
      · rintro p (hp | hp)
        · exact (tp p hp).trans (min_le_right _ _)
        · exact (ep p hp).trans (min_le_right _ _)
      · rintro d (hd | hd)
        · exact (td d hd).trans (min_le_right _ _)
        · exact (ed d hd).trans (min_le_right _ _)
  | whileLoop l name c body ih =>
      obtain ⟨-, -, rfl, hbody⟩ := typed
      obtain ⟨hp, hd⟩ := ih hbody (0 :: o)
      simp only [places, declared, List.mem_append, List.mem_singleton]
      refine ⟨fun p h => (hp p h).trans (min_le_right _ _), ?_⟩
      rintro d (h | rfl)
      · exact (hd d h).trans (min_le_right _ _)
      · exact min_le_left _ _
  | nil l => simp [places, declared]
  | cons l first rest ihf ihr =>
      obtain ⟨-, hf, hr⟩ := typed
      obtain ⟨fp, fd⟩ := ihf hf (0 :: o)
      obtain ⟨rp, rd⟩ := ihr hr (1 :: o)
      simp only [places, declared, List.mem_append]
      exact ⟨fun p hp => hp.elim (fp p) (rp p), fun d hd => hd.elim (fd d) (rd d)⟩

variable {k : L} {inherits provides : List (VarBinding L)} {o : Origin} {c : Collected L}

/-- A phase does the statements of its label and provides their bindings. -/
theorem collectPhase_own (typed : Typed .concrete host binder env s)
    (h : collectPhase k inherits o provides s = .ok c) :
    c.ast.kept = ofLabel k ((places o s).map Prod.swap) ∧ c.provides = ofLabel k (declared s) := by
  induction s generalizing env provides o c with
  | letIn l b body ih =>
      have hbody := typed.2.2.2.2.2
      obtain ⟨rfl, -, reqs, c', -, hc, rfl⟩ | ⟨hl, c', hc, rfl⟩ := collectPhase_letIn h
      · obtain ⟨hk, hp⟩ := ih hbody hc
        simp [kept_letAstIfOperation, Stmt.kept, hk, hp, places, declared, localBinding]
      · obtain ⟨hk, hp⟩ := ih hbody hc
        simp [Stmt.kept, hk, hp, places, declared, hl]
  | letRemote l b body ih =>
      obtain ⟨-, -, handleLabel, ops, -, -, hbody⟩ := typed
      obtain ⟨rfl, -, reqs, c', -, hc, rfl⟩ | ⟨hl, c', hc, ⟨-, reqs, -, rfl⟩ | ⟨-, rfl⟩⟩ :=
        collectPhase_letRemote h
      · obtain ⟨hk, hp⟩ := ih hbody hc
        simp [Stmt.kept, hk, hp, places, declared, remoteBinding]
      · obtain ⟨hk, hp⟩ := ih hbody hc
        simp [Stmt.kept, hk, hp, places, declared, hl]
      · obtain ⟨hk, hp⟩ := ih hbody hc
        simp [hk, hp, places, declared, hl]
  | operation l name hd args =>
      obtain ⟨rfl, reqs, -, rfl⟩ | ⟨hl, rfl⟩ := collectPhase_operation h
      · split <;> simp [Stmt.kept, places, declared]
      · simp [Stmt.kept, places, declared, hl]
  | assignment l target e =>
      obtain ⟨rfl, reqs, -, rfl⟩ | ⟨hl, rfl⟩ := collectPhase_assignment h
      · simp [Stmt.kept, places, declared]
      · split <;> simp [Stmt.kept, places, declared, hl]
  | ret l e =>
      obtain ⟨rfl, reqs, -, rfl⟩ | ⟨hl, rfl⟩ := collectPhase_ret h
      · simp [Stmt.kept, places, declared]
      · simp [Stmt.kept, places, declared, hl]
  | accompanyWrite l target =>
      obtain ⟨rfl, reqs, -, rfl⟩ | ⟨hl, rfl⟩ := collectPhase_accompanyWrite h
      · simp [Stmt.kept, places, declared]
      · simp [Stmt.kept, places, declared, hl]
  | writeTombstone l e =>
      obtain ⟨rfl, reqs, -, rfl⟩ | ⟨hl, rfl⟩ := collectPhase_writeTombstone h
      · simp [Stmt.kept, places, declared]
      · simp [Stmt.kept, places, declared, hl]
  | ifThen l x t e iht ihe =>
      obtain ⟨-, -, hl, ht, he⟩ := typed
      obtain ⟨-, reqs, ct, ce, -, hct, hce, rfl⟩ | ⟨hflow, rfl⟩ := collectPhase_ifThen h
      · obtain ⟨htk, htp⟩ := iht ht hct
        obtain ⟨hek, hep⟩ := ihe he hce
        simp [Stmt.kept, htk, htp, hek, hep, places, declared]
      · -- the branches are below the label of the test, which is below the phase
        have low : min x.label env.pcLabel < k := by
          rw [min_comm]
          exact not_le.mp fun h => hflow (hl.symm ▸ h)
        have below : ∀ {s : Statement L L} {i : Nat}, Typed .concrete host binder
            (env.withPc (min x.label env.pcLabel)) s →
            ofLabel k ((places (i :: o) s).map Prod.swap) = [] ∧ ofLabel k (declared s) = [] := by
          intro s i hs
          obtain ⟨hp, hd⟩ := typed_below hs (i :: o)
          refine ⟨ofLabel_none ?_, ofLabel_none fun d h => ((hd d h).trans_lt low).ne⟩
          intro p hmem
          obtain ⟨q, hq, rfl⟩ := List.mem_map.mp hmem
          exact ((hp q hq).trans_lt low).ne
        simp [Stmt.kept, places, declared, @below t 0 ht, @below e 1 he]
  | whileLoop l name x body ih =>
      obtain ⟨-, -, hl, hbody⟩ := typed
      obtain ⟨rfl, reqs, c', -, hc, rfl⟩ | ⟨hk, -, -, c', hc, rfl⟩ | ⟨hk, hflow, rfl⟩ :=
        collectPhase_whileLoop h
      · obtain ⟨hk, hp⟩ := ih hbody hc
        simp [Stmt.kept, hk, hp, places, declared]
      · obtain ⟨hkept, hp⟩ := ih hbody hc
        simp [Stmt.kept, hkept, hp, places, declared, hk]
      · have low : min x.label env.pcLabel < k := by
          rw [min_comm]
          exact not_le.mp fun h => hflow (hl.symm ▸ h)
        obtain ⟨hp, hd⟩ := typed_below hbody (0 :: o)
        refine ⟨(ofLabel_none ?_).symm, (ofLabel_none ?_).symm⟩
        · intro p hmem
          obtain ⟨q, hq, rfl⟩ := List.mem_map.mp hmem
          exact ((hp q hq).trans_lt low).ne
        · simp only [declared, List.mem_append, List.mem_singleton]
          rintro d (h | rfl)
          · exact ((hd d h).trans_lt low).ne
          · exact hk
  | nil l =>
      obtain rfl := collectPhase_nil h
      simp [Stmt.kept, places, declared]
  | cons l first rest ihf ihr =>
      obtain ⟨-, hf, hr⟩ := typed
      obtain ⟨cf, cr, hcf, hcr, rfl⟩ := collectPhase_cons h
      obtain ⟨hfk, hfp⟩ := ihf hf hcf
      obtain ⟨hrk, hrp⟩ := ihr hr hcr
      simp [Stmt.kept, hfk, hfp, hrk, hrp, places, declared]

end Typed

section Passes

variable {L : Type*}

@[simp] theorem kept_removeUnused (requires : List (VarBinding L)) (s : Stmt L) :
    (removeUnused requires s).kept = s.kept := by
  induction s with
  | incrementOccurance o x => unfold removeUnused; split <;> rfl
  | incrementRemoteOccurance o x => unfold removeUnused; split <;> rfl
  | refreshRemoteOccurance o h => unfold removeUnused; split <;> rfl
  | _ => simp_all [removeUnused, Stmt.kept]

@[simp] theorem kept_clearEmpty (s : Stmt L) : (clearEmpty s).ast.kept = s.kept := by
  induction s with
  | ifThen o c t e iht ihe =>
      rw [clearEmpty_ifThen]
      split
      · rename_i h
        simp only [Bool.and_eq_true] at h
        simp [Stmt.kept, ← iht, ← ihe, Stmt.kept_of_empty h.1, Stmt.kept_of_empty h.2]
      · simp [Stmt.kept, iht, ihe]
  | cons first rest ihf ihr => simp [clearEmpty, Stmt.kept, ihf, ihr]
  | _ => simp_all [clearEmpty, Stmt.kept]

theorem refreshed_removeUnused (requires : List (VarBinding L)) (s : Stmt L) :
    ∀ h ∈ (removeUnused requires s).refreshed, h ∈ s.refreshed := by
  induction s with
  | incrementOccurance o x => unfold removeUnused; split <;> simp [Stmt.refreshed]
  | incrementRemoteOccurance o x => unfold removeUnused; split <;> simp [Stmt.refreshed]
  | refreshRemoteOccurance o h => unfold removeUnused; split <;> simp [Stmt.refreshed]
  | ifThen o c t e iht ihe =>
      simp only [removeUnused, Stmt.refreshed, List.mem_append]
      exact fun h hh => hh.imp (iht h) (ihe h)
  | cons first rest ihf ihr =>
      simp only [removeUnused, Stmt.refreshed, List.mem_append]
      exact fun h hh => hh.imp (ihf h) (ihr h)
  | _ => simp_all [removeUnused, Stmt.refreshed]

theorem refreshed_clearEmpty (s : Stmt L) :
    ∀ h ∈ (clearEmpty s).ast.refreshed, h ∈ s.refreshed := by
  induction s with
  | ifThen o c t e iht ihe =>
      rw [clearEmpty_ifThen]
      split
      · simp [Stmt.refreshed]
      · simp only [Stmt.refreshed, List.mem_append]
        exact fun h hh => hh.imp (iht h) (ihe h)
  | cons first rest ihf ihr =>
      simp only [clearEmpty, Stmt.refreshed_collapse, Stmt.refreshed, List.mem_append]
      exact fun h hh => hh.imp (ihf h) (ihr h)
  | _ => simp_all [clearEmpty, Stmt.refreshed]

end Passes

section FinalPhase

variable {L : Type*} {k : L} {inherits : List (VarBinding L)} {c : Collected L}

@[simp] theorem kept_finalPhase : (finalPhase k inherits c).ast.kept = c.ast.kept := by
  simp [finalPhase]

theorem refreshed_finalPhase : ∀ h ∈ (finalPhase k inherits c).ast.refreshed, h ∈ c.ast.refreshed :=
  fun h hh => refreshed_removeUnused _ _ h (refreshed_clearEmpty _ h (refreshed_removeUnused _ _ h hh))

end FinalPhase

section Split

variable {L : Type*} [LinearOrder L] [BoundedOrder L] {host : HostTypes L} {binder : L → Prop}
  {env : TypeEnv L L} {prog : Statement L L}

/-- What the phase of label `k` inherits, where `start` is there at the beginning and the
phases of `ks` run. -/
def Inherits (prog : Statement L L) (start : List (VarBinding L)) (ks : List L) (k : L)
    (inherits : List (VarBinding L)) : Prop :=
  ∀ v, v ∈ inherits ↔ v ∈ start ∨ ∃ d ∈ declared prog, d.1 ∈ ks ∧ k < d.1 ∧ d.2 = v

omit [BoundedOrder L] in
theorem inherits_head {start : List (VarBinding L)} {k : L} {ks : List L}
    (weaker : ∀ l ∈ ks, l < k) : Inherits prog start (k :: ks) k start := by
  intro v
  refine ⟨Or.inl, ?_⟩
  rintro (h | ⟨d, -, hks, hk, -⟩)
  · exact h
  · obtain h | h := List.mem_cons.mp hks
    · exact absurd (h ▸ hk) (lt_irrefl k)
    · exact absurd hk (weaker _ h).not_gt

omit [BoundedOrder L] in
theorem inherits_tail {start inherits : List (VarBinding L)} {k l : L} {ks : List L} (hl : l < k) :
    Inherits prog (start ++ ofLabel k (declared prog)) ks l inherits ↔
      Inherits prog start (k :: ks) l inherits := by
  have same : ∀ v, (v ∈ start ++ ofLabel k (declared prog) ∨
      ∃ d ∈ declared prog, d.1 ∈ ks ∧ l < d.1 ∧ d.2 = v) ↔
      (v ∈ start ∨ ∃ d ∈ declared prog, d.1 ∈ k :: ks ∧ l < d.1 ∧ d.2 = v) := by
    intro v
    rw [List.mem_append, mem_ofLabel]
    constructor
    · rintro ((h | h) | ⟨d, hd, hks, hk, rfl⟩)
      · exact Or.inl h
      · exact Or.inr ⟨_, h, List.mem_cons_self .., hl, rfl⟩
      · exact Or.inr ⟨d, hd, List.mem_cons_of_mem _ hks, hk, rfl⟩
    · rintro (h | ⟨⟨m, w⟩, hd, hks, hk, rfl⟩)
      · exact Or.inl (Or.inl h)
      · obtain rfl | h := List.mem_cons.mp hks
        · exact Or.inl (Or.inr hd)
        · exact Or.inr ⟨_, hd, h, hk, rfl⟩
  exact forall_congr' fun v => iff_congr Iff.rfl (same v)

/-- The phases of a successful split. -/
theorem splitLabels_ok (typed : Typed .concrete host binder env prog)
    {start : List (VarBinding L)} {ks : List L} (sorted : ks.Pairwise (· > ·))
    {phases : List (Prephase L)} (h : splitLabels prog start ks = .ok phases) :
    phases.map Prephase.label = ks ∧ ∀ P ∈ phases, ∃ inherits c,
      Inherits prog start ks P.label inherits ∧
      collectPhase P.label inherits [] [] prog = .ok c ∧ P = finalPhase P.label inherits c := by
  induction ks generalizing start phases with
  | nil =>
      obtain rfl : [] = phases := by simpa [splitLabels] using h
      simp
  | cons k ks ih =>
      obtain ⟨weaker, sorted⟩ := List.pairwise_cons.mp sorted
      obtain ⟨c, hc, h⟩ := except_bind_ok h
      obtain ⟨rest, hrest, h⟩ := except_bind_ok h
      simp only [Except.ok.injEq] at h
      subst h
      rw [(collectPhase_own typed hc).2] at hrest
      obtain ⟨hlabels, hphases⟩ := ih sorted hrest
      refine ⟨by simp [finalPhase, hlabels], ?_⟩
      simp only [List.forall_mem_cons]
      refine ⟨⟨start, c, inherits_head weaker, hc, rfl⟩, fun P hP => ?_⟩
      obtain ⟨inherits, c', hinh, hc', heq⟩ := hphases P hP
      have hl : P.label ∈ ks := hlabels ▸ List.mem_map_of_mem hP
      exact ⟨inherits, c', (inherits_tail (weaker _ hl)).mp hinh, hc', heq⟩

/-- A split succeeds where each phase can be collected. -/
theorem splitLabels_succeeds (typed : Typed .concrete host binder env prog)
    {start : List (VarBinding L)} {ks : List L} (sorted : ks.Pairwise (· > ·))
    (collected : ∀ k ∈ ks, ∀ inherits, Inherits prog start ks k inherits →
      ∃ c, collectPhase k inherits [] [] prog = .ok c) :
    ∃ phases, splitLabels prog start ks = .ok phases := by
  induction ks generalizing start with
  | nil => exact ⟨[], rfl⟩
  | cons k ks ih =>
      obtain ⟨weaker, sorted⟩ := List.pairwise_cons.mp sorted
      obtain ⟨c, hc⟩ := collected k (List.mem_cons_self ..) start (inherits_head weaker)
      have hown := (collectPhase_own typed hc).2
      obtain ⟨rest, hrest⟩ := @ih (start ++ c.provides) sorted fun l hl inherits hinh =>
        collected l (List.mem_cons_of_mem _ hl) inherits
          ((inherits_tail (weaker l hl)).mp (hown ▸ hinh))
      exact ⟨finalPhase k start c :: rest, by simp [splitLabels, hc, hrest, bind, Except.bind]⟩

omit [BoundedOrder L] in
theorem mem_phaseLabels {sorting : ComparisonSort} {l : L} :
    l ∈ phaseLabels sorting prog ↔ l ∈ prog.labels := by
  simp [phaseLabels, Inference.mem_collectProperLabels, Statement.labels_mapLabel,
    Label.properLabels]

omit [BoundedOrder L] in
theorem phaseLabels_sorted (sorting : ComparisonSort) :
    (phaseLabels sorting prog).Pairwise (· > ·) :=
  List.pairwise_reverse.mpr (Inference.collectProperLabels_sorted sorting _)

end Split

end Split

end MixT
