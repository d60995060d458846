import Mathlib.Data.List.Nodup
import Mathlib.Data.List.Count
import MixT.Flatten.NormalForm

/-!
# Generated names

The counters of a generated variable say where in the program it stands: the first
counts the statements before it in its sequences and the `else` branches around it, the
second counts the layers and bodies. Two variables next to each other can come out with
the same counters, as a later statement and an `else` branch count the same.
-/

namespace MixT.Flatten

namespace Slot

/-- In a body that stands deeper. -/
def deeper (n : ℕ) : Slot → Slot
  | layer k seqnum depth => layer k seqnum (depth + n)
  | loop seqnum depth => loop seqnum (depth + 1)

/-- In the next statement of a sequence, or in an `else` branch. -/
def next : Slot → Slot
  | layer k seqnum depth => layer k (seqnum + 1) depth
  | loop seqnum depth => loop (seqnum + 1) depth

/-- In a statement with these counters, for the layers and for the loops. -/
def within (s d s' d' : ℕ) : Slot → Slot
  | layer k seqnum depth => layer k (s + seqnum) (d + depth)
  | loop seqnum depth => loop (s' + seqnum) (d' + depth)

theorem deeper_injective (n : ℕ) : Function.Injective (deeper n) := by
  intro p q same
  cases p <;> cases q <;> simp_all [deeper]

theorem next_injective : Function.Injective next := by
  intro p q same
  cases p <;> cases q <;> simp_all [next]

theorem within_injective (s d s' d' : ℕ) : Function.Injective (within s d s' d') := by
  intro p q same
  cases p <;> cases q <;> simp_all [within]

theorem within_comp_deeper (s d s' d' n : ℕ) :
    within s d s' d' ∘ deeper n = within s (d + n) s' (d' + 1) := by
  funext p
  cases p <;> simp [within, deeper] <;> omega

theorem within_comp_next (s d s' d' : ℕ) :
    within s d s' d' ∘ next = within (s + 1) d (s' + 1) d' := by
  funext p
  cases p <;> simp [within, next] <;> omega

end Slot

theorem chain_within (s d s' d' a b : ℕ) (ks : List Kind) :
    (chain a b ks).map (Slot.within s d s' d') = chain (s + a) (d + b) ks := by
  induction ks generalizing b with
  | nil => rfl
  | cons k ks ih => simp [chain, Slot.within, ih, Nat.add_assoc]

theorem callSlots_within (s d s' d' : ℕ) (ks : List Kind) :
    (callSlots 0 0 ks).map (Slot.within s d s' d') = callSlots s d ks := by
  cases ks with
  | nil => rfl
  | cons k ks => simp [callSlots, List.map_dropLast, chain_within, Slot.within]

theorem mem_chain {s d : ℕ} {ks : List Kind} {p : Slot} (h : p ∈ chain s d ks) :
    ∃ k depth, p = .layer k s depth ∧ d ≤ depth ∧ depth < d + 2 * ks.length := by
  induction ks generalizing d with
  | nil => simp [chain] at h
  | cons k ks ih =>
      rcases List.mem_cons.mp h with rfl | h
      · exact ⟨k, d, rfl, le_rfl, by simp⟩
      · obtain ⟨k', depth, rfl, low, high⟩ := ih h
        exact ⟨k', depth, rfl, by omega, by simp; omega⟩

theorem nodup_chain (s d : ℕ) (ks : List Kind) : (chain s d ks).Nodup := by
  induction ks generalizing d with
  | nil => exact List.nodup_nil
  | cons k ks ih =>
      refine List.nodup_cons.mpr ⟨fun h => ?_, ih _⟩
      obtain ⟨k', depth, same, low, -⟩ := mem_chain h
      cases same
      omega

theorem nodup_callSlots (s d : ℕ) (ks : List Kind) : (callSlots s d ks).Nodup := by
  cases ks with
  | nil => exact List.nodup_nil
  | cons k ks =>
      refine List.Nodup.sublist (List.dropLast_sublist _) ?_
      refine List.nodup_cons.mpr ⟨fun h => ?_, nodup_chain _ _ _⟩
      obtain ⟨k', depth, same, -, -⟩ := mem_chain h
      cases same

namespace Stmt

/-- The variables that the pass generates, with the counters from the statement on. -/
def places : Stmt → List Slot
  | letIn _ e body =>
      chain 0 0 e.letLayers ++ body.places.map (Slot.deeper (2 * e.letLayers.length + 1))
  | letRemote _ e body =>
      chain 0 0 e.layers ++ body.places.map (Slot.deeper (2 * e.layers.length + 1))
  | assignment var e => chain 0 0 (e.layers ++ var.targetLayers)
  | operation name h exprs vars => callSlots 0 0 (Expr.operation name h exprs vars).layers
  | ret e => chain 0 0 e.layers
  | ifThen c thn els =>
      chain 0 0 c.layers ++
        (thn.places ++ els.places.map Slot.next).map (Slot.deeper (2 * c.layers.length + 1))
  | whileLoop c body =>
      .loop 0 0 :: (chain 0 2 c.layers ++ body.places.map (Slot.deeper (2 * c.layers.length + 3)))
  | nil => []
  | cons first rest => first.places ++ rest.places.map Slot.next

/-- The flags of the loops of a statement. -/
def loopSlots (seqnum depth : ℕ) : Stmt → List Slot
  | letIn _ _ body | letRemote _ _ body => body.loopSlots seqnum (depth + 1)
  | ifThen _ thn els =>
      thn.loopSlots seqnum (depth + 1) ++ els.loopSlots (seqnum + 1) (depth + 1)
  | whileLoop _ body => .loop seqnum depth :: body.loopSlots seqnum (depth + 1)
  | cons first rest => first.loopSlots seqnum depth ++ rest.loopSlots (seqnum + 1) depth
  | assignment .. | operation .. | ret _ | nil => []

/-- What stands side by side has different counters: a statement and what follows it in its
sequence, and the branches of an `if`. -/
def Apart : Stmt → Prop
  | letIn _ _ body | letRemote _ _ body | whileLoop _ body => body.Apart
  | ifThen _ thn els => thn.Apart ∧ els.Apart ∧ thn.places.Disjoint (els.places.map Slot.next)
  | cons first rest =>
      first.Apart ∧ rest.Apart ∧ first.places.Disjoint (rest.places.map Slot.next)
  | assignment .. | operation .. | ret _ | nil => True

theorem nodup_under (ks : List Kind) (d : ℕ) (ps : List Slot) :
    (chain 0 d ks ++ ps.map (Slot.deeper (d + 2 * ks.length + 1))).Nodup ↔ ps.Nodup := by
  rw [List.nodup_append', List.nodup_map_iff (Slot.deeper_injective _)]
  refine ⟨fun h => h.2.1, fun h => ⟨nodup_chain _ _ _, h, ?_⟩⟩
  intro p hp hq
  obtain ⟨k, depth, rfl, -, high⟩ := mem_chain hp
  obtain ⟨q, -, same⟩ := List.mem_map.mp hq
  cases q <;> simp [Slot.deeper] at same
  omega

theorem nodup_beside (ps qs : List Slot) :
    (ps ++ qs.map Slot.next).Nodup ↔ ps.Nodup ∧ qs.Nodup ∧ ps.Disjoint (qs.map Slot.next) := by
  rw [List.nodup_append', List.nodup_map_iff Slot.next_injective]

/-- Only what stands side by side can have the same counters. -/
theorem nodup_places_iff (st : Stmt) : st.places.Nodup ↔ st.Apart := by
  induction st with
  | letIn x e body ih => rw [places, Apart, ← ih]; simpa using nodup_under e.letLayers 0 body.places
  | letRemote x e body ih =>
      rw [places, Apart, ← ih]; simpa using nodup_under e.layers 0 body.places
  | assignment var e => exact iff_of_true (nodup_chain _ _ _) trivial
  | operation name h exprs vars => exact iff_of_true (nodup_callSlots _ _ _) trivial
  | ret e => exact iff_of_true (nodup_chain _ _ _) trivial
  | ifThen c thn els ihThen ihElse =>
      rw [places, Apart, ← ihThen, ← ihElse, ← nodup_beside]
      simpa using nodup_under c.layers 0 (thn.places ++ els.places.map Slot.next)
  | whileLoop c body ih =>
      have deep : 2 * c.layers.length + 3 = 2 + 2 * c.layers.length + 1 := by omega
      rw [places, Apart, ← ih, List.nodup_cons, deep, nodup_under]
      refine and_iff_right fun h => ?_
      rcases List.mem_append.mp h with h | h
      · obtain ⟨k, depth, same, -⟩ := mem_chain h
        cases same
      · obtain ⟨q, -, same⟩ := List.mem_map.mp h
        cases q <;> simp [Slot.deeper] at same
  | nil => exact iff_of_true List.nodup_nil trivial
  | cons first rest ihFirst ihRest =>
      rw [places, Apart, ← ihFirst, ← ihRest, ← nodup_beside]

end Stmt

/-- What the first pass does: it adds the flags of the loops, and the second one counts as if the
loops had none. -/
structure Desugared (seqnum depth : ℕ) (st t : Stmt) : Prop where
  binders : t.binders.Perm (st.binders ++ (st.loopSlots seqnum depth).map Slot.name)
  inRange : ∀ p ∈ st.loopSlots seqnum depth, p.InRange
  noConstantField : t.NoConstantField ↔ st.NoConstantField
  slots : ∀ s d, (slots s d t ++ st.loopSlots seqnum depth).Perm
    (st.places.map (Slot.within s d seqnum depth))

theorem Desugared.append_binders {s d s' d' : ℕ} {a b a' b' : Stmt} (first : Desugared s d a a')
    (second : Desugared s' d' b b') :
    (a'.binders ++ b'.binders).Perm (a.binders ++ b.binders ++
      (a.loopSlots s d ++ b.loopSlots s' d').map Slot.name) := by
  rw [List.map_append]
  exact (first.binders.append second.binders).trans (append_perm_swap _ _ _ _)

theorem desugared_of_desugarWhile {s' d' : ℕ} {st t : Stmt} (hs : s' ≤ charLimit)
    (hd : d' ≤ charLimit) (desugar : desugarWhile s' d' st = some t) : Desugared s' d' st t := by
  induction st generalizing s' d' t with
  | letIn x e body ih =>
      rw [desugarWhile] at desugar
      split at desugar
      next below =>
        obtain ⟨body', desugarBody, rfl⟩ := Option.map_eq_some_iff.mp desugar
        have inner := ih hs below desugarBody
        refine ⟨inner.binders.cons x, inner.inRange, and_congr Iff.rfl inner.noConstantField, ?_⟩
        intro s d
        rw [slots, Stmt.loopSlots, Stmt.places, List.map_append, chain_within, List.map_map,
          Slot.within_comp_deeper, List.append_assoc]
        exact (inner.slots s _).append_left _
      next => cases desugar
  | letRemote x e body ih =>
      rw [desugarWhile] at desugar
      split at desugar
      next below =>
        obtain ⟨body', desugarBody, rfl⟩ := Option.map_eq_some_iff.mp desugar
        have inner := ih hs below desugarBody
        refine ⟨inner.binders.cons x, inner.inRange, inner.noConstantField, ?_⟩
        intro s d
        rw [slots, Stmt.loopSlots, Stmt.places, List.map_append, chain_within, List.map_map,
          Slot.within_comp_deeper, List.append_assoc]
        exact (inner.slots s _).append_left _
      next => cases desugar
  | assignment var e =>
      cases desugar
      refine ⟨.refl _, by simp [Stmt.loopSlots], Iff.rfl, fun s d => ?_⟩
      rw [slots, Stmt.loopSlots, Stmt.places, chain_within, List.append_nil]
      exact .refl _
  | operation name h exprs vars =>
      cases desugar
      refine ⟨.refl _, by simp [Stmt.loopSlots], Iff.rfl, fun s d => ?_⟩
      rw [slots, Stmt.loopSlots, Stmt.places, callSlots_within, List.append_nil]
  | ret e =>
      cases desugar
      refine ⟨.refl _, by simp [Stmt.loopSlots], Iff.rfl, fun s d => ?_⟩
      rw [slots, Stmt.loopSlots, Stmt.places, chain_within, List.append_nil]
      exact .refl _
  | ifThen c thn els ihThen ihElse =>
      rw [desugarWhile] at desugar
      split at desugar
      next below =>
        obtain ⟨thn', desugarThen, desugar⟩ := Option.bind_eq_some_iff.mp desugar
        obtain ⟨els', desugarElse, rfl⟩ := Option.map_eq_some_iff.mp desugar
        have first := ihThen hs below.1 desugarThen
        have second := ihElse below.2 below.1 desugarElse
        refine ⟨first.append_binders second, List.forall_mem_append.mpr ⟨first.inRange,
          second.inRange⟩, and_congr first.noConstantField second.noConstantField, ?_⟩
        intro s d
        rw [slots, Stmt.loopSlots, Stmt.places, List.map_append, chain_within, List.map_append,
          List.map_append, List.map_map, List.map_map, List.map_map, Slot.within_comp_deeper,
          Slot.within_comp_next, List.append_assoc]
        exact ((append_perm_swap _ _ _ _).trans ((first.slots s _).append
          (second.slots (s + 1) _))).append_left _
      next => cases desugar
  | whileLoop c body ih =>
      rw [desugarWhile] at desugar
      split at desugar
      next below =>
        obtain ⟨body', desugarBody, rfl⟩ := Option.map_eq_some_iff.mp desugar
        have inner := ih hs below desugarBody
        have counted : ∀ s d, slots s d (.letIn (whileName s' d') (.varReference trueName)
            (.whileLoop (.varReference (whileName s' d')) (.ifThen c body'
              (.assignment (.varReference (whileName s' d')) (.varReference falseName))))) =
            chain s (d + 2) c.layers ++ slots s (d + (2 * c.layers.length + 3)) body' := by
          intro s d
          have deep : d + 1 + 1 + 2 * c.layers.length + 1 = d + (2 * c.layers.length + 3) := by omega
          simp [slots, Expr.layers, Expr.letLayers, Expr.isConstantField, Expr.bindsLast,
            Expr.targetLayers, chain, deep]
        refine ⟨?_, List.forall_mem_cons.mpr ⟨⟨hs, hd⟩, inner.inRange⟩, ?_, ?_⟩
        · rw [Stmt.binders, Stmt.binders, Stmt.binders, Stmt.binders, Stmt.binders,
            List.append_nil, Stmt.loopSlots, List.map_cons]
          exact (inner.binders.cons _).trans List.perm_middle.symm
        · simp [Stmt.NoConstantField, Expr.isConstantField, inner.noConstantField]
        · intro s d
          rw [counted, Stmt.loopSlots, Stmt.places, List.map_cons, List.map_append, chain_within,
            List.map_map, Slot.within_comp_deeper]
          apply List.perm_middle.trans
          rw [List.append_assoc]
          exact ((inner.slots s _).append_left _).cons _
      next => cases desugar
  | nil =>
      cases desugar
      exact ⟨.refl _, by simp [Stmt.loopSlots], Iff.rfl, fun s d => .refl _⟩
  | cons first rest ihFirst ihRest =>
      rw [desugarWhile] at desugar
      split at desugar
      next below =>
        obtain ⟨first', desugarFirst, desugar⟩ := Option.bind_eq_some_iff.mp desugar
        obtain ⟨rest', desugarRest, rfl⟩ := Option.map_eq_some_iff.mp desugar
        have first := ihFirst hs hd desugarFirst
        have second := ihRest below hd desugarRest
        refine ⟨first.append_binders second, List.forall_mem_append.mpr ⟨first.inRange,
          second.inRange⟩, and_congr first.noConstantField second.noConstantField, ?_⟩
        intro s d
        rw [slots, Stmt.loopSlots, Stmt.places, List.map_append, List.map_map,
          Slot.within_comp_next]
        exact (append_perm_swap _ _ _ _).trans ((first.slots s d).append (second.slots (s + 1) d))
      next => cases desugar

/-- The names of the variables that the pass generates. -/
def Stmt.generatedNames (st : Stmt) : List Name :=
  st.places.map fun p => (p.within 1 1 1 1).name

/-- All that is bound in a flattened program, and how it looks. -/
theorem flattenExpressions_spec {st t : Stmt} (compiles : flattenExpressions st = some t) :
    t.binders.Perm (st.binders ++ st.generatedNames) ∧
      (∀ p ∈ st.places, (p.within 1 1 1 1).InRange) ∧ (t.Normal ↔ st.NoConstantField) := by
  obtain ⟨st', desugar, flat⟩ := Option.bind_eq_some_iff.mp compiles
  have loops := desugared_of_desugarWhile (by decide) (by decide) desugar
  have layers := flattened_of_flattenExprs (by decide) (by decide) flat
  have all := loops.slots 1 1
  refine ⟨?_, ?_, layers.normal.trans loops.noConstantField⟩
  · calc
      t.binders.Perm (st'.binders ++ (slots 1 1 st').map Slot.name) := layers.binders
      List.Perm _ (st.binders ++ ((st.loopSlots 1 1).map Slot.name ++
          (slots 1 1 st').map Slot.name)) := by
        rw [← List.append_assoc]
        exact loops.binders.append_right _
      List.Perm _ (st.binders ++ st.generatedNames) := by
        apply List.Perm.append_left
        rw [← List.map_append, Stmt.generatedNames, ← Function.comp_def Slot.name, ← List.map_map]
        exact (List.perm_append_comm.trans all).map _
  · intro p hp
    have mem := all.mem_iff.mpr (List.mem_map_of_mem hp)
    rcases List.mem_append.mp mem with mem | mem
    · exact layers.inRange _ mem
    · exact loops.inRange _ mem

/-- The binders of the flattened program that are not the source's. -/
def generated (st t : Stmt) : List Name := t.binders.diff st.binders

namespace Expr

mutual

/-- The variables that an expression mentions. -/
def mentioned : Expr → List Name
  | varReference x => [x]
  | constant _ => []
  | fieldReference e _ | fieldPointerReference e _ | dereference e | isValid e | endorse _ e
  | ensure _ e => e.mentioned
  | binOp _ l r => l.mentioned ++ r.mentioned
  | operation _ h exprs vars => h.mentioned ++ mentionedAll exprs ++ vars

def mentionedAll : List Expr → List Name
  | [] => []
  | e :: es => e.mentioned ++ mentionedAll es

end

end Expr

/-- The variables of a program: those it binds and those it mentions. -/
def Stmt.mentioned : Stmt → List Name
  | letIn x e body | letRemote x e body => x :: (e.mentioned ++ body.mentioned)
  | assignment var e => var.mentioned ++ e.mentioned
  | operation _ h exprs vars => h.mentioned ++ Expr.mentionedAll exprs ++ vars
  | ret e => e.mentioned
  | ifThen c thn els => c.mentioned ++ thn.mentioned ++ els.mentioned
  | whileLoop c body => c.mentioned ++ body.mentioned
  | nil => []
  | cons first rest => first.mentioned ++ rest.mentioned

/-- A flattened program is in normal form, and its generated variables are distinct from each other
and from all others. -/
structure Unique (st t : Stmt) : Prop where
  normal : t.Normal
  distinct : (generated st t).Nodup
  fresh : ∀ x ∈ generated st t, x ∉ st.mentioned

/-- Parts next to each other have different counters, no variable of the program is spelled like a
generated one, and no variable is bound to a field of a constant. -/
structure Spaced (st : Stmt) : Prop where
  apart : st.Apart
  unspelled : ∀ x ∈ st.mentioned, x ∉ st.generatedNames
  noConstantField : st.NoConstantField

theorem diff_append (xs ys : List Name) : (xs ++ ys).diff xs = ys := by
  induction xs with
  | nil => rfl
  | cons x xs ih => rw [List.cons_append, List.diff_cons, List.erase_cons_head, ih]

theorem generated_perm {st t : Stmt} (compiles : flattenExpressions st = some t) :
    (generated st t).Perm st.generatedNames := by
  have removed := (flattenExpressions_spec compiles).1.diff_right st.binders
  rwa [diff_append] at removed

/-- The names are distinct as soon as the counters are. -/
theorem nodup_generatedNames {st : Stmt} (inRange : ∀ p ∈ st.places, (p.within 1 1 1 1).InRange) :
    st.generatedNames.Nodup ↔ st.Apart := by
  rw [← Stmt.nodup_places_iff]
  constructor
  · exact fun distinct => distinct.of_map _
  · intro distinct
    apply distinct.map_on
    intro p hp q hq same
    exact Slot.within_injective 1 1 1 1 (Slot.name_injective (inRange p hp) (inRange q hq) same)

/-- Flattening makes normal forms with names of their own exactly from the programs in which no
generated counters meet. -/
theorem flattenExpressions_iff {st t : Stmt} (compiles : flattenExpressions st = some t) :
    Unique st t ↔ Spaced st := by
  obtain ⟨-, inRange, normal⟩ := flattenExpressions_spec compiles
  have perm := generated_perm compiles
  have distinct : (generated st t).Nodup ↔ st.Apart :=
    perm.nodup_iff.trans (nodup_generatedNames inRange)
  have fresh : (∀ x ∈ generated st t, x ∉ st.mentioned) ↔
      ∀ x ∈ st.mentioned, x ∉ st.generatedNames := by
    constructor
    · exact fun h x hx hg => h x (perm.mem_iff.mpr hg) hx
    · exact fun h x hg hx => h x hx (perm.mem_iff.mp hg)
  constructor
  · exact fun h => ⟨distinct.mp h.distinct, fresh.mp h.fresh, normal.mp h.normal⟩
  · exact fun h => ⟨normal.mpr h.noConstantField, distinct.mpr h.apart, fresh.mpr h.unspelled⟩

section Programs

open Flatten.Expr Stmt

/-- `var x = a + b * c, return x` -/
def sumOfProduct : Stmt :=
  letIn ['x'] (binOp .plus (varReference ['a']) (binOp .times (varReference ['b'])
    (varReference ['c']))) (ret (varReference ['x']))

theorem sumOfProduct_unique :
    ∃ t, flattenExpressions sumOfProduct = some t ∧ Unique sumOfProduct t := by
  have compiles : flattenExpressions sumOfProduct =
      some (letIn (generateName 1 1) (binOp .times (varReference ['b']) (varReference ['c']))
        (letIn ['x'] (binOp .plus (varReference ['a']) (varReference (generateName 1 1)))
          (ret (varReference ['x'])))) := by
    simp [flattenExpressions, sumOfProduct, desugarWhile, flattenExprs, removeLayer, bindLayer,
      charLimit, isFlat, isVarReference]
  refine ⟨_, compiles, (flattenExpressions_iff compiles).mpr ⟨trivial, by decide, ?_⟩⟩
  exact ⟨rfl, trivial⟩

/-- `if (c) {} else { return 1 }, if (c) { return 2 }` -/
def elseThenIf : Stmt :=
  cons (ifThen (varReference ['c']) nil (ret (constant 1)))
    (cons (ifThen (varReference ['c']) (ret (constant 2)) nil) nil)

/-- Both constants are bound to the variable with the counters two and two. -/
theorem elseThenIf_collides :
    ∃ t, flattenExpressions elseThenIf = some t ∧ ¬ Unique elseThenIf t := by
  have compiles : flattenExpressions elseThenIf =
      some (cons (ifThen (varReference ['c']) nil
          (letIn (generateName 2 2) (constant 1) (ret (varReference (generateName 2 2)))))
        (cons (ifThen (varReference ['c'])
          (letIn (generateName 2 2) (constant 2) (ret (varReference (generateName 2 2)))) nil)
          nil)) := by
    simp [flattenExpressions, elseThenIf, desugarWhile, flattenExprs, removeLayer, bindLayer,
      charLimit, isFlat, isVarReference]
  refine ⟨_, compiles, fun unique => ?_⟩
  exact absurd unique.distinct (by decide)

end Programs

end MixT.Flatten
