import MixT.Flatten.Layers

/-!
# The flattened program

What the pass binds is read off the statement it starts from, and what it leaves has only
variables for operands, except that a `let` of a field of a constant stays as it is.
-/

namespace MixT.Flatten

section Counters

/-- The bindings of some layers, each two deeper than the one before. -/
def chain (seqnum depth : ℕ) : List Kind → List Slot
  | [] => []
  | k :: ks => .layer k seqnum depth :: chain seqnum (depth + 2) ks

/-- The bindings of the layers of a call that is a statement. All but the first count as a later
statement, and the last is the call itself. -/
def callSlots (seqnum depth : ℕ) : List Kind → List Slot
  | [] => []
  | k :: ks => (.layer k seqnum depth :: chain (seqnum + 1) (depth + 1) ks).dropLast

/-- The variables that the pass binds in a statement. -/
def slots (seqnum depth : ℕ) : Stmt → List Slot
  | .letIn _ e body =>
      chain seqnum depth e.letLayers ++ slots seqnum (depth + 2 * e.letLayers.length + 1) body
  | .letRemote _ e body =>
      chain seqnum depth e.layers ++ slots seqnum (depth + 2 * e.layers.length + 1) body
  | .assignment var e => chain seqnum depth (e.layers ++ var.targetLayers)
  | .operation name h exprs vars =>
      callSlots seqnum depth (Expr.operation name h exprs vars).layers
  | .ret e => chain seqnum depth e.layers
  | .ifThen c thn els =>
      chain seqnum depth c.layers ++
        (slots seqnum (depth + 2 * c.layers.length + 1) thn ++
          slots (seqnum + 1) (depth + 2 * c.layers.length + 1) els)
  | .whileLoop c body =>
      chain seqnum depth c.layers ++ slots seqnum (depth + 2 * c.layers.length + 1) body
  | .nil => []
  | .cons first rest => slots seqnum depth first ++ slots (seqnum + 1) depth rest

end Counters

namespace Stmt

/-- The variables that a statement binds. -/
def binders : Stmt → List Name
  | letIn x _ body | letRemote x _ body => x :: body.binders
  | ifThen _ thn els => thn.binders ++ els.binders
  | whileLoop _ body => body.binders
  | cons first rest => first.binders ++ rest.binders
  | assignment .. | operation .. | ret _ | nil => []

end Stmt

namespace Expr

/-- Every operand of a bound expression is a variable. -/
def Normal : Expr → Prop
  | varReference _ | constant _ => True
  | fieldReference e _ | isValid e | endorse _ e | ensure _ e => e.isVarReference = true
  | binOp _ l r => l.isVarReference = true ∧ r.isVarReference = true
  | operation _ h exprs _ => h.isVarReference = true ∧ exprs = []
  | dereference _ | fieldPointerReference .. => False

/-- A dereference somewhere in the place an expression denotes. -/
def hasDereference : Expr → Bool
  | dereference _ | fieldPointerReference .. => true
  | fieldReference e _ => e.hasDereference
  | _ => false

theorem normal_iff {e : Expr} (flat : e.isFlat = true) :
    e.Normal ↔ e.isConstantField = false := by
  unfold isFlat at flat
  split at flat
  case h_10 => cases flat
  all_goals simp [Normal, isConstantField, isConstant, isVarReference]

theorem hasDereference_of_containsFieldpointerRef {e : Expr}
    (h : e.containsFieldpointerRef = some false) :
    e.hasDereference = false ∧ e.targetLayers = [] := by
  induction e using containsFieldpointerRef.induct with
  | case1 => exact ⟨rfl, rfl⟩
  | case3 f e notDereference ih =>
      rw [containsFieldpointerRef] at h
      · rw [hasDereference, targetLayers]
        · exact ih h
        · exact notDereference
      · exact notDereference
  | _ => simp [containsFieldpointerRef] at h

end Expr

namespace Stmt

/-- Every operand, condition, assigned and returned value of a statement is a variable, and no
target of an assignment has a dereference. -/
def Normal : Stmt → Prop
  | letIn _ e body => e.Normal ∧ body.Normal
  | letRemote _ e body => e.isVarReference = true ∧ body.Normal
  | assignment var e => var.hasDereference = false ∧ e.isVarReference = true
  | operation _ h exprs _ => h.isVarReference = true ∧ exprs = []
  | ret e => e.isVarReference = true
  | ifThen c thn els => c.isVarReference = true ∧ thn.Normal ∧ els.Normal
  | whileLoop c body => c.isVarReference = true ∧ body.Normal
  | nil => True
  | cons first rest => first.Normal ∧ rest.Normal

/-- No variable is bound to a field of a constant. -/
def NoConstantField : Stmt → Prop
  | letIn _ e body => e.isConstantField = false ∧ body.NoConstantField
  | letRemote _ _ body | whileLoop _ body => body.NoConstantField
  | ifThen _ thn els => thn.NoConstantField ∧ els.NoConstantField
  | cons first rest => first.NoConstantField ∧ rest.NoConstantField
  | assignment .. | operation .. | ret _ | nil => True

end Stmt

theorem append_perm_swap {α : Type*} (a b c d : List α) :
    (a ++ b ++ (c ++ d)).Perm (a ++ c ++ (b ++ d)) := by
  rw [List.append_assoc, List.append_assoc]
  exact (List.perm_append_comm_assoc b c d).append_left a

/-- What the pass makes of a statement. -/
structure Flattened (seqnum depth : ℕ) (st t : Stmt) : Prop where
  binders : t.binders.Perm (st.binders ++ (slots seqnum depth st).map Slot.name)
  inRange : ∀ p ∈ slots seqnum depth st, p.InRange
  normal : t.Normal ↔ st.NoConstantField

section Step

variable {s d : ℕ}

/-- The place of an expression in a statement: it loses a layer, and the rest of the statement
stays. -/
structure Place (sub : Expr → Stmt) (k : Kind) (e e' : Expr) : Prop where
  binders : (sub e').binders = (sub e).binders
  slots : ∀ s d, slots s d (sub e) = .layer k s d :: slots s (d + 2) (sub e')
  noConstantField : (sub e').NoConstantField ↔ (sub e).NoConstantField

theorem Flattened.append {s' d' s'' d'' : ℕ} {st a b t a' b' : Stmt} (first : Flattened s d a a')
    (second : Flattened s' d' b b') (binders : st.binders = a.binders ++ b.binders)
    (binders' : t.binders = a'.binders ++ b'.binders)
    (counted : MixT.Flatten.slots s'' d'' st = slots s d a ++ slots s' d' b)
    (normal : t.Normal ↔ a'.Normal ∧ b'.Normal)
    (noField : st.NoConstantField ↔ a.NoConstantField ∧ b.NoConstantField) :
    Flattened s'' d'' st t := by
  refine ⟨?_, ?_, ?_⟩
  · rw [binders, binders', counted, List.map_append]
    exact (first.binders.append second.binders).trans (append_perm_swap _ _ _ _)
  · rw [counted]
    exact List.forall_mem_append.mpr ⟨first.inRange, second.inRange⟩
  · rw [normal, noField, first.normal, second.normal]

theorem slots_bindAs {e b e' : Expr} {k : Kind} (h : Peels s d e k b e') (s' d' : ℕ) (x : Name)
    (st : Stmt) :
    slots s' d' (bindAs k x b st) = slots s' (d' + 1) st := by
  rcases h.bound with ⟨rfl, var⟩ | ⟨rfl, flat, -⟩
  · obtain ⟨y, rfl⟩ := eq_varReference var
    simp [bindAs, slots, Expr.layers, chain]
  · simp [bindAs, slots, Expr.letLayers_of_isFlat flat, chain]

theorem binders_bindAs (k : Kind) (x : Name) (b : Expr) (st : Stmt) :
    (bindAs k x b st).binders = x :: st.binders := by
  cases k <;> rfl

theorem noConstantField_bindAs {e b e' : Expr} {k : Kind} (h : Peels s d e k b e') (x : Name)
    (st : Stmt) :
    (bindAs k x b st).NoConstantField ↔ st.NoConstantField := by
  rcases h.bound with ⟨rfl, -⟩ | ⟨rfl, -, noField⟩
  · rfl
  · simp [bindAs, Stmt.NoConstantField, noField]

/-- One layer is bound, the rest is flattened. -/
theorem Flattened.of_removes {sub : Expr → Stmt} {e : Expr} {st t : Stmt} (hs : s ≤ charLimit)
    (hd : d ≤ charLimit) (removes : Removes s d sub e st)
    (place : ∀ {k b e'}, Peels s d e k b e' → Place sub k e e')
    (rest : Flattened s (d + 1) st t) : Flattened s d (sub e) t := by
  obtain ⟨k, b, e', peels, rfl⟩ := removes
  have here := place peels
  have counted : slots s d (sub e) =
      .layer k s d :: slots s (d + 1)
        (bindAs k (Slot.name (.layer k s d)) b (sub e')) := by
    rw [here.slots, slots_bindAs peels]
  refine ⟨?_, ?_, ?_⟩
  · calc
      t.binders.Perm (Slot.name (.layer k s d) :: (sub e').binders ++
          (slots s (d + 1) (bindAs k (Slot.name (.layer k s d)) b (sub e'))).map Slot.name) := by
        rw [← binders_bindAs k _ b]
        exact rest.binders
      List.Perm _ ((sub e).binders ++ (slots s d (sub e)).map Slot.name) := by
        rw [counted, here.binders, List.map_cons, List.cons_append]
        exact List.perm_middle.symm
  · rw [counted]
    exact List.forall_mem_cons.mpr ⟨⟨hs, hd⟩, rest.inRange⟩
  · rw [rest.normal, noConstantField_bindAs peels, here.noConstantField]

theorem place_letIn {e : Expr} (deep : e.isFlat = false) (x : Name) (body : Stmt) {k : Kind}
    {b e' : Expr} (h : Peels s d e k b e') : Place (fun e => .letIn x e body) k e e' where
  binders := rfl
  slots s' d' := by
    simp only [MixT.Flatten.slots, h.letLayers_eq deep, chain, List.cons_append, List.length_cons]
    congr 3
    omega
  noConstantField := by
    have field : e.isConstantField = false := by
      cases h' : e.isConstantField with
      | false => rfl
      | true => rw [Expr.isFlat_of_isConstantField h'] at deep; cases deep
    have field' : e'.isConstantField = false := by
      rcases h.shape with var | ⟨-, -, rest⟩
      · obtain ⟨y, rfl⟩ := eq_varReference var
        rfl
      · exact rest
    simp only [Stmt.NoConstantField, field, field']

theorem place_letRemote {e : Expr} (x : Name) (body : Stmt) {k : Kind}
    {b e' : Expr} (h : Peels s d e k b e') : Place (fun e => .letRemote x e body) k e e' where
  binders := rfl
  slots s' d' := by
    simp only [MixT.Flatten.slots, h.layers_eq, chain, List.cons_append, List.length_cons]
    congr 3
    omega
  noConstantField := Iff.rfl

theorem place_value {e : Expr} (var : Expr) {k : Kind}
    {b e' : Expr} (h : Peels s d e k b e') : Place (fun e => .assignment var e) k e e' where
  binders := rfl
  slots s' d' := by simp only [MixT.Flatten.slots, h.layers_eq, chain, List.cons_append]
  noConstantField := Iff.rfl

theorem place_target {e : Expr} (x : Name) (pointer : e.containsFieldpointerRef = some true)
    {k : Kind} {b e' : Expr} (h : Peels s d e k b e') :
    Place (fun e => .assignment e (.varReference x)) k e e' where
  binders := rfl
  slots s' d' := by
    simp only [MixT.Flatten.slots, h.targetLayers_eq pointer, chain, Expr.layers, List.nil_append]
  noConstantField := Iff.rfl

theorem place_ret {e : Expr} {k : Kind} {b e' : Expr} (h : Peels s d e k b e') :
    Place .ret k e e' where
  binders := rfl
  slots s' d' := by simp only [MixT.Flatten.slots, h.layers_eq, chain]
  noConstantField := Iff.rfl

theorem place_ifThen {e : Expr} (thn els : Stmt) {k : Kind} {b e' : Expr}
    (h : Peels s d e k b e') : Place (fun c => .ifThen c thn els) k e e' where
  binders := rfl
  slots s' d' := by
    have deeper : d' + 2 * (e'.layers.length + 1) + 1 = d' + 2 + 2 * e'.layers.length + 1 := by omega
    simp only [MixT.Flatten.slots, h.layers_eq, chain, List.cons_append, List.length_cons, deeper]
  noConstantField := Iff.rfl

theorem place_whileLoop {e : Expr} (body : Stmt) {k : Kind} {b e' : Expr}
    (h : Peels s d e k b e') : Place (fun c => .whileLoop c body) k e e' where
  binders := rfl
  slots s' d' := by
    simp only [MixT.Flatten.slots, h.layers_eq, chain, List.cons_append, List.length_cons]
    congr 3
    omega
  noConstantField := Iff.rfl

end Step

theorem flattenExprs_bindAs {s d s' d' : ℕ} {e b e' : Expr} {k : Kind} {x : Name} {st t : Stmt}
    (h : Peels s' d' e k b e') (flat : flattenExprs s d (bindAs k x b st) = some t) :
    ∃ t', flattenExprs s (d + 1) st = some t' ∧ t = bindAs k x b t' := by
  have below : d < charLimit := by
    by_contra above
    cases k <;> simp [bindAs, flattenExprs, above] at flat
  rcases h.bound with ⟨rfl, var⟩ | ⟨rfl, hflat, -⟩
  · rw [bindAs, flattenExprs, if_pos below, if_pos var, Option.map_eq_some_iff] at flat
    obtain ⟨t', rest, rfl⟩ := flat
    exact ⟨t', rest, rfl⟩
  · simp only [bindAs, flattenExprs, if_pos below, if_pos hflat, Option.map_eq_some_iff] at flat
    obtain ⟨t', rest, rfl⟩ := flat
    exact ⟨t', rest, rfl⟩

/-- What returns a value is the chain of the bindings of its layers. -/
theorem binders_ret {s d : ℕ} {e : Expr} {t : Stmt} (flat : flattenExprs s d (.ret e) = some t) :
    t.binders = (chain s d e.layers).map Slot.name := by
  -- each round binds the first of the layers
  induction layers : e.layers generalizing d e t with
  | nil =>
      have var : e.isVarReference = true := by
        by_contra deep
        exact Expr.layers_ne_nil (Bool.eq_false_of_not_eq_true deep) layers
      rw [flattenExprs, if_pos var, Option.some.injEq] at flat
      rw [← flat]
      rfl
  | cons k ks ih =>
      have deep : ¬ e.isVarReference = true := by
        intro var
        obtain ⟨x, rfl⟩ := eq_varReference var
        cases layers
      rw [flattenExprs, if_neg deep] at flat
      split at flat
      · obtain ⟨peeled, removed, rest⟩ := Option.bind_eq_some_iff.mp flat
        obtain ⟨k', b, e', peels, rfl⟩ := removes_of_removeLayer _ _ removed
        obtain ⟨t', flat', rfl⟩ := flattenExprs_bindAs peels rest
        rw [peels.layers_eq, List.cons.injEq] at layers
        obtain ⟨rfl, rfl⟩ := layers
        rw [binders_bindAs, ih flat' rfl, chain, List.map_cons]
      · cases flat

/-- The last binding goes, all others stay. -/
theorem operationToStatement_eq {t t' : Stmt} (h : operationToStatement t = some t') :
    t'.binders = t.binders.dropLast ∧ (t'.Normal ↔ t.Normal) := by
  induction t using operationToStatement.induct generalizing t' with
  | case1 x n h exprs vars y =>
      cases h
      simp [Stmt.binders, Stmt.Normal, Expr.Normal, Expr.isVarReference]
  | case6 => simp [operationToStatement] at h
  | _ =>
      rw [operationToStatement, Option.map_eq_some_iff] at h
      obtain ⟨t'', rest, rfl⟩ := h
      rename_i ih
      obtain ⟨binders, normal⟩ := ih rest
      rw [Stmt.binders] at binders
      constructor
      · rw [Stmt.binders, binders, Stmt.binders, Stmt.binders, List.dropLast_cons_cons]
      · exact and_congr Iff.rfl normal

theorem flattened_of_flattenExprs {s d : ℕ} {st t : Stmt} (hs : s ≤ charLimit) (hd : d ≤ charLimit)
    (flat : flattenExprs s d st = some t) : Flattened s d st t := by
  induction s, d, st using flattenExprs.induct generalizing t with
  | case1 s d x e body below hflat ih =>
      rw [flattenExprs, if_pos below, if_pos hflat, Option.map_eq_some_iff] at flat
      obtain ⟨t', rest, rfl⟩ := flat
      have inner := ih hs below rest
      have counted : slots s d (.letIn x e body) = slots s (d + 1) body := by
        rw [slots, Expr.letLayers_of_isFlat hflat]
        rfl
      refine ⟨?_, ?_, ?_⟩
      · rw [counted]
        exact inner.binders.cons x
      · rw [counted]
        exact inner.inRange
      · rw [Stmt.Normal, Stmt.NoConstantField, Expr.normal_iff hflat, inner.normal]
  | case2 s d x e body below deep ih =>
      rw [flattenExprs, if_pos below, if_neg deep] at flat
      obtain ⟨peeled, removed, rest⟩ := Option.bind_eq_some_iff.mp flat
      exact .of_removes hs hd (removes_of_removeLayer _ _ removed)
        (place_letIn (Bool.eq_false_of_not_eq_true deep) x body) (ih peeled hs below rest)
  | case4 s d x e body below var ih =>
      rw [flattenExprs, if_pos below, if_pos var, Option.map_eq_some_iff] at flat
      obtain ⟨t', rest, rfl⟩ := flat
      obtain ⟨y, rfl⟩ := eq_varReference var
      have body := ih hs below rest
      refine ⟨body.binders.cons x, body.inRange, ?_⟩
      rw [Stmt.Normal, Stmt.NoConstantField, body.normal]
      exact and_iff_right rfl
  | case5 s d x e body below deep ih =>
      rw [flattenExprs, if_pos below, if_neg deep] at flat
      obtain ⟨peeled, removed, rest⟩ := Option.bind_eq_some_iff.mp flat
      exact .of_removes hs hd (removes_of_removeLayer _ _ removed) (place_letRemote x body)
        (ih peeled hs below rest)
  | case7 s d var e hvar noPointer =>
      rw [flattenExprs, if_pos hvar, noPointer] at flat
      obtain ⟨y, rfl⟩ := eq_varReference hvar
      cases flat
      obtain ⟨noDereference, noLayers⟩ := Expr.hasDereference_of_containsFieldpointerRef noPointer
      have none : slots s d (.assignment var (.varReference y)) = [] := by
        rw [slots, noLayers]
        rfl
      refine ⟨?_, ?_, ?_⟩
      · rw [none]
        exact .refl _
      · simp [none]
      · simp [Stmt.Normal, Stmt.NoConstantField, noDereference, Expr.isVarReference]
  | case8 s d var e hvar pointer below ih =>
      rw [flattenExprs, if_pos hvar, pointer] at flat
      simp only [if_pos below] at flat
      obtain ⟨peeled, removed, rest⟩ := Option.bind_eq_some_iff.mp flat
      obtain ⟨y, rfl⟩ := eq_varReference hvar
      exact @Flattened.of_removes _ _ (fun var => .assignment var (.varReference y)) var _ _ hs hd
        (removes_of_removeLayer _ _ removed) (place_target y pointer) (ih peeled hs below rest)
  | case11 s d var e deep below ih =>
      rw [flattenExprs, if_neg deep, if_pos below] at flat
      obtain ⟨peeled, removed, rest⟩ := Option.bind_eq_some_iff.mp flat
      exact .of_removes hs hd (removes_of_removeLayer _ _ removed) (place_value var)
        (ih peeled hs below rest)
  | case13 s d name h exprs vars both =>
      rw [flattenExprs, if_pos both, Option.some.injEq] at flat
      obtain ⟨hvar, rfl⟩ := both
      obtain ⟨y, rfl⟩ := eq_varReference hvar
      subst flat
      exact ⟨.refl _, by simp [slots, Expr.layers, Expr.layersAll, callSlots, chain],
        by simp [Stmt.Normal, Stmt.NoConstantField, Expr.isVarReference]⟩
  | case14 s d name h exprs vars deep below ih =>
      rw [flattenExprs, if_neg deep, if_pos below] at flat
      obtain ⟨peeled, removed, rest⟩ := Option.bind_eq_some_iff.mp flat
      obtain ⟨t₀, rest, converted⟩ := Option.bind_eq_some_iff.mp rest
      have whole := ih peeled below hd rest
      obtain ⟨k, b, e', peels, rfl⟩ := removes_of_removeLayer _ _ removed
      obtain ⟨t₁, flat₁, rfl⟩ := flattenExprs_bindAs peels rest
      obtain ⟨binders, normal⟩ := operationToStatement_eq converted
      have counted : slots s d (.operation name h exprs vars) =
          (Slot.layer k s d :: chain (s + 1) (d + 1) e'.layers).dropLast := by
        rw [slots, peels.layers_eq]
        rfl
      refine ⟨?_, ?_, ?_⟩
      · rw [binders, binders_bindAs, binders_ret flat₁, counted, Stmt.binders, List.nil_append,
          List.map_dropLast, List.map_cons]
      · rw [counted]
        intro p hp
        rcases List.mem_cons.mp (List.dropLast_subset _ hp) with rfl | hp
        · exact ⟨hs, hd⟩
        · refine whole.inRange p ?_
          rw [slots_bindAs peels]
          exact hp
      · rw [normal, whole.normal, noConstantField_bindAs peels]
        rfl
  | case16 s d e var =>
      rw [flattenExprs, if_pos var, Option.some.injEq] at flat
      obtain ⟨y, rfl⟩ := eq_varReference var
      subst flat
      exact ⟨.refl _, by simp [slots, Expr.layers, chain], iff_of_true rfl trivial⟩
  | case17 s d e deep below ih =>
      rw [flattenExprs, if_neg deep, if_pos below] at flat
      obtain ⟨peeled, removed, rest⟩ := Option.bind_eq_some_iff.mp flat
      exact .of_removes hs hd (removes_of_removeLayer _ _ removed) place_ret
        (ih peeled hs below rest)
  | case19 s d c thn els below var next ihThen ihElse =>
      rw [flattenExprs, if_pos below, if_pos var, if_pos next] at flat
      obtain ⟨thn', flatThen, rest⟩ := Option.bind_eq_some_iff.mp flat
      obtain ⟨els', flatElse, rfl⟩ := Option.map_eq_some_iff.mp rest
      obtain ⟨y, rfl⟩ := eq_varReference var
      exact (ihThen hs below flatThen).append (ihElse next below flatElse) rfl rfl rfl
        (and_iff_right rfl) Iff.rfl
  | case21 s d c thn els below deep ih =>
      rw [flattenExprs, if_pos below, if_neg deep] at flat
      obtain ⟨peeled, removed, rest⟩ := Option.bind_eq_some_iff.mp flat
      exact .of_removes hs hd (removes_of_removeLayer _ _ removed) (place_ifThen thn els)
        (ih peeled hs below rest)
  | case23 s d c body below var ih =>
      rw [flattenExprs, if_pos below, if_pos var, Option.map_eq_some_iff] at flat
      obtain ⟨t', rest, rfl⟩ := flat
      obtain ⟨y, rfl⟩ := eq_varReference var
      have body := ih hs below rest
      refine ⟨body.binders, body.inRange, ?_⟩
      rw [Stmt.Normal, Stmt.NoConstantField, body.normal]
      exact and_iff_right rfl
  | case24 s d c body below deep ih =>
      rw [flattenExprs, if_pos below, if_neg deep] at flat
      obtain ⟨peeled, removed, rest⟩ := Option.bind_eq_some_iff.mp flat
      exact .of_removes hs hd (removes_of_removeLayer _ _ removed) (place_whileLoop body)
        (ih peeled hs below rest)
  | case26 s d =>
      rw [flattenExprs, Option.some.injEq] at flat
      subst flat
      exact ⟨.refl _, by simp [slots], Iff.rfl⟩
  | case27 s d first rest next ihFirst ihRest =>
      rw [flattenExprs, if_pos next] at flat
      obtain ⟨first', flatFirst, flat⟩ := Option.bind_eq_some_iff.mp flat
      obtain ⟨rest', flatRest, rfl⟩ := Option.map_eq_some_iff.mp flat
      exact (ihFirst hs hd flatFirst).append (ihRest next hd flatRest) rfl rfl rfl Iff.rfl Iff.rfl
  | _ => simp [flattenExprs, *] at flat

end MixT.Flatten
