import MixT.Inference.Soundness
import Mathlib.Order.Bounds.Basic
import Mathlib.Order.MinMax

/-! # The strongest labels

A program whose constraints have a solution is accepted, and each temporary label gets
the strongest label that it has in any solution, except where a source on no node of the
tree would decide it. Neither the order or number of the constraints nor the names of the
temporary labels matter. -/

namespace MixT

namespace Label

variable {L : Type*}

/-- A label with other temporary labels. -/
def rename (r : Int × Int → Int × Int) : Label L → Label L
  | .concrete l => .concrete l
  | .temp s d => .temp (r (s, d)).1 (r (s, d)).2
  | .minOf a b => .minOf (rename r a) (rename r b)

section Rename

variable (r : Int × Int → Int × Int)

theorem leaves_rename (l : Label L) : (l.rename r).leaves = l.leaves.map (rename r) := by
  induction l with
  | concrete l => rfl
  | temp s d => rfl
  | minOf a b iha ihb => simp [rename, leaves, iha, ihb]

theorem properLabels_rename (l : Label L) : (l.rename r).properLabels = l.properLabels := by
  induction l with
  | concrete l => rfl
  | temp s d => rfl
  | minOf a b iha ihb => simp [rename, properLabels, iha, ihb]

theorem rename_eq_concrete {l : Label L} {c : L} : l.rename r = .concrete c ↔ l = .concrete c := by
  cases l <;> simp [rename]

theorem rename_eq_temp {l : Label L} {s d : Int} (h : l.rename r = .temp s d) :
    ∃ s' d', l = .temp s' d' ∧ r (s', d') = (s, d) := by
  cases l with
  | concrete l => simp [rename] at h
  | temp s' d' =>
      obtain ⟨hs, hd⟩ := Label.temp.injEq .. ▸ h
      exact ⟨s', d', rfl, Prod.ext hs hd⟩
  | minOf a b => simp [rename] at h

variable {r} in
theorem rename_injective (hr : Function.Injective r) :
    Function.Injective (rename r : Label L → Label L) := by
  intro a b h
  induction a generalizing b with
  | concrete l => exact ((rename_eq_concrete r).mp h.symm).symm
  | temp s d =>
      obtain ⟨s', d', rfl, hsd⟩ := rename_eq_temp r h.symm
      have same : (s', d') = (s, d) := hr hsd
      simp_all
  | minOf x y ihx ihy =>
      cases b with
      | minOf x' y' =>
          obtain ⟨hx, hy⟩ := Label.minOf.injEq .. ▸ h
          rw [ihx hx, ihy hy]
      | _ => simp [rename] at h

variable [LinearOrder L]

theorem eval_rename (ρ : Int → Int → L) (l : Label L) :
    (l.rename r).eval ρ = l.eval fun s d => ρ (r (s, d)).1 (r (s, d)).2 := by
  induction l with
  | concrete l => rfl
  | temp s d => rfl
  | minOf a b iha ihb => simp [rename, iha, ihb]

theorem resolve_rename (a b : Label L) :
    resolve (a.rename r) (b.rename r) = (resolve a b).rename r := by
  cases a <;> cases b <;> rfl

theorem normal_rename {l : Label L} (h : l.Normal) : (l.rename r).Normal := by
  induction l with
  | concrete l => trivial
  | temp s d => trivial
  | minOf a b iha ihb =>
      obtain ⟨ha, hb, hab⟩ := h
      refine ⟨iha ha, ihb hb, ?_⟩
      rw [resolve_rename, hab]
      rfl

/-- The meaning of a label is monotone in the meaning of its temporary labels. -/
theorem eval_mono {ρ σ : Int → Int → L} {l : Label L}
    (h : ∀ s d, .temp s d ∈ l.leaves → ρ s d ≤ σ s d) : l.eval ρ ≤ l.eval σ := by
  induction l with
  | concrete l => exact le_rfl
  | temp s d => exact h s d (List.mem_singleton_self _)
  | minOf a b iha ihb =>
      have ha := iha fun s d hsd => h s d (List.mem_append_left _ hsd)
      have hb := ihb fun s d hsd => h s d (List.mem_append_right _ hsd)
      exact min_le_min ha hb

theorem eval_congr {ρ σ : Int → Int → L} {l : Label L}
    (h : ∀ s d, .temp s d ∈ l.leaves → ρ s d = σ s d) : l.eval ρ = l.eval σ :=
  le_antisymm (eval_mono fun s d hsd => (h s d hsd).le) (eval_mono fun s d hsd => (h s d hsd).ge)

end Rename

end Label

namespace Inference

open Library

variable {L : Type*} [LinearOrder L]

section Rename

variable (r : Int × Int → Int × Int)

def Constraint.rename (c : Constraint L) : Constraint L := ⟨c.high.rename r, c.low.rename r, c.why⟩

theorem findConcreteLabel_rename (l : Label L) :
    findConcreteLabel (l.rename r) = findConcreteLabel l := by
  induction l with
  | concrete l => rfl
  | temp s d => rfl
  | minOf a b iha ihb => simp only [Label.rename, findConcreteLabel, iha, ihb]

theorem collapseTarget_rename (l : Label L) :
    collapseTarget (l.rename r) = (collapseTarget l).map (Label.rename r) := by
  unfold collapseTarget
  rw [findConcreteLabel_rename]
  cases hfound : findConcreteLabel l with
  | error e => rfl
  | ok o =>
      cases l <;> cases o <;> try rfl
      rename_i a b
      by_cases hab : FlowsTo b a
      · simp [Label.rename, bind, Except.bind, Except.map, hab]
      · simp [Label.rename, bind, Except.bind, Except.map, hab]

theorem mem_collectProperLabels_rename {sorting : Library.ComparisonSort}
    {ast : Statement (Label L) L} {c : L} :
    c ∈ collectProperLabels sorting (ast.mapLabel (Label.rename r)) ↔
      c ∈ collectProperLabels sorting ast := by
  simp only [mem_collectProperLabels, Statement.labels_mapLabel, List.mem_map,
    exists_exists_and_eq_and, Label.properLabels_rename]

variable [BoundedOrder L]

theorem flowToHandle_rename (source : Label L) (handle : Ty L) (why : Why) :
    flowToHandle (source.rename r) handle why =
      (flowToHandle source handle why).map (Constraint.rename r) := by
  unfold flowToHandle
  split <;> rfl

theorem collectOperation_rename (h : VarRef (Label L) L) (args : List (VarRef (Label L) L)) :
    collectOperation (h.mapLabel (Label.rename r)) (args.map (VarRef.mapLabel (Label.rename r))) =
      (collectOperation h args).map (Constraint.rename r) := by
  unfold collectOperation
  rw [List.map_append, List.flatMap_map, List.map_flatMap, ← flowToHandle_rename]
  congr 1
  apply List.flatMap_congr
  intro arg _
  exact flowToHandle_rename r arg.label h.yield .operationArgsHandle

theorem collectExpr_rename (e : Expression (Label L) L) :
    collectExpr (e.mapLabel (Label.rename r)) = (collectExpr e).map (Constraint.rename r) := by
  obtain ⟨label, yield, form⟩ := e
  cases form with
  | isValid h => exact flowToHandle_rename r h.label h.yield .isValidExprHandle
  | operation name h args => exact collectOperation_rename r h args
  | _ => rfl

theorem minOfHandle_rename (l : Label L) (handle : Ty L) :
    minOfHandle (l.rename r) handle = (minOfHandle l handle).rename r := by
  unfold minOfHandle
  split <;> rfl

/-- The constraints of a renamed tree are the renamed constraints. -/
theorem collectConstraints_rename (pc : Label L) (s : Statement (Label L) L) :
    collectConstraints (pc.rename r) (s.mapLabel (Label.rename r)) =
      (collectConstraints pc s).map (Constraint.rename r) := by
  induction s generalizing pc with
  | letIn label b body ih =>
      simp only [Statement.mapLabel, collectConstraints, List.map_append, collectExpr_rename, ih]
      rfl
  | letRemote label b body ih =>
      simp only [Statement.mapLabel, collectConstraints, List.map_append, VarRef.mapLabel, ih,
        flowToHandle_rename]
      congr 2
      have lowered := minOfHandle_rename r (.minOf pc b.expr.label) b.expr.yield
      simp only [Label.rename] at lowered
      rw [lowered]
      rfl
  | operation label name h args => exact collectOperation_rename r h args
  | assignment label target e =>
      simp only [Statement.mapLabel, collectConstraints, Target.label_mapLabel]
      rfl
  | ifThen label c t e iht ihe =>
      have iht := iht (.minOf pc label)
      have ihe := ihe (.minOf pc label)
      simp only [Label.rename] at iht ihe
      simp only [Statement.mapLabel, collectConstraints, List.map_append, iht, ihe]
  | whileLoop label name c body ih =>
      have ih := ih (.minOf pc label)
      simp only [Label.rename] at ih
      simp only [Statement.mapLabel, collectConstraints, ih]
  | cons label first rest ihf ihr =>
      simp only [Statement.mapLabel, collectConstraints, List.map_append, ihf, ihr]
  | _ => rfl

theorem mem_collectConstraints_rename {ast : Statement (Label L) L} {c : Constraint L} :
    c ∈ collectConstraints (.concrete ⊤) (ast.mapLabel (Label.rename r)) ↔
      ∃ d ∈ collectConstraints (.concrete ⊤) ast, d.rename r = c := by
  have renamed := collectConstraints_rename r (.concrete ⊤) ast
  rw [show (Label.concrete ⊤ : Label L).rename r = .concrete ⊤ from rfl] at renamed
  rw [renamed, List.mem_map]

variable {r}

theorem flow_rename {ast : Statement (Label L) L} {u v : Label L} :
    Flow (collectConstraints (.concrete ⊤) (ast.mapLabel (Label.rename r))) u v ↔
      ∃ u' v', Flow (collectConstraints (.concrete ⊤) ast) u' v' ∧
        u'.rename r = u ∧ v'.rename r = v := by
  constructor
  · rintro ⟨c, hc, hu, hv⟩
    obtain ⟨d, hd, rfl⟩ := (mem_collectConstraints_rename r).mp hc
    simp only [Constraint.rename, Label.leaves_rename, List.mem_map] at hu
    obtain ⟨u', hu', rfl⟩ := hu
    simp only [Constraint.rename, collapseTarget_rename] at hv
    cases target : collapseTarget d.low with
    | error e => simp [target, Except.map] at hv
    | ok v' =>
        rw [target] at hv
        obtain rfl : v'.rename r = v := by simpa [Except.map] using hv
        exact ⟨u', v', ⟨d, hd, hu', target⟩, rfl, rfl⟩
  · rintro ⟨u', v', ⟨d, hd, hu, hv⟩, rfl, rfl⟩
    refine ⟨d.rename r, (mem_collectConstraints_rename r).mpr ⟨d, hd, rfl⟩, ?_, ?_⟩
    · simp only [Constraint.rename, Label.leaves_rename]
      exact List.mem_map_of_mem hu
    · simp only [Constraint.rename, collapseTarget_rename, hv]
      rfl

/-- A label reaches the renamed labels that it reached before. -/
theorem reaches_rename (hr : Function.Injective r) {ast : Statement (Label L) L} {x : L}
    {v : Label L} :
    Reaches (Flow (collectConstraints (.concrete ⊤) (ast.mapLabel (Label.rename r)))) x
        (v.rename r) ↔
      Reaches (Flow (collectConstraints (.concrete ⊤) ast)) x v := by
  have inj := Label.rename_injective (L := L) hr
  constructor
  · intro h
    have original : ∀ w,
        Reaches (Flow (collectConstraints (.concrete ⊤) (ast.mapLabel (Label.rename r)))) x w →
        ∃ v, v.rename r = w ∧ Reaches (Flow (collectConstraints (.concrete ⊤) ast)) x v := by
      intro w hw
      induction hw with
      | direct hflow =>
          obtain ⟨u', v', hflow, hu, rfl⟩ := flow_rename.mp hflow
          obtain rfl := (Label.rename_eq_concrete r).mp hu
          exact ⟨v', rfl, .direct hflow⟩
      | through _ hflow ih =>
          obtain ⟨t, ht, hreach⟩ := ih
          obtain ⟨u', v', hflow, hu, rfl⟩ := flow_rename.mp hflow
          obtain rfl : u' = t := inj (hu.trans ht.symm)
          obtain ⟨s', d', rfl, -⟩ := Label.rename_eq_temp r ht
          exact ⟨v', rfl, .through hreach hflow⟩
    obtain ⟨v', hv', hreach⟩ := original _ h
    exact inj hv' ▸ hreach
  · intro h
    induction h with
    | direct hflow => exact .direct (flow_rename.mpr ⟨_, _, hflow, rfl, rfl⟩)
    | through _ hflow ih => exact .through ih (flow_rename.mpr ⟨_, _, hflow, rfl, rfl⟩)

variable {sorting : Library.ComparisonSort} {ast : Statement (Label L) L}

theorem conflict_rename (hr : Function.Injective r) :
    Conflict (Flow (collectConstraints (.concrete ⊤) (ast.mapLabel (Label.rename r))))
        (collectProperLabels sorting (ast.mapLabel (Label.rename r))) ↔
      Conflict (Flow (collectConstraints (.concrete ⊤) ast)) (collectProperLabels sorting ast) := by
  simp only [Conflict, mem_collectProperLabels_rename]
  have reaches : ∀ x y, Reaches (Flow (collectConstraints (.concrete ⊤)
      (ast.mapLabel (Label.rename r)))) x (.concrete y) ↔
      Reaches (Flow (collectConstraints (.concrete ⊤) ast)) x (.concrete y) :=
    fun x y => reaches_rename hr (v := .concrete y)
  simp only [reaches]

theorem Inferable.rename (h : Inferable sorting ast) (hr : Function.Injective r) :
    Inferable sorting (ast.mapLabel (Label.rename r)) := by
  refine ⟨?_, ?_, ?_⟩
  · intro c hc
    obtain ⟨d, hd, rfl⟩ := (mem_collectConstraints_rename r).mp hc
    obtain ⟨v, hv⟩ := h.collapsible d hd
    refine ⟨v.rename r, ?_⟩
    simp only [Constraint.rename, collapseTarget_rename, hv]
    rfl
  · rw [Statement.labels_mapLabel]
    intro l hl s d hsd
    obtain ⟨l', hl', rfl⟩ := List.mem_map.mp hl
    rw [Label.leaves_rename] at hsd
    obtain ⟨t, ht, hsd⟩ := List.mem_map.mp hsd
    obtain ⟨s', d', rfl, -⟩ := Label.rename_eq_temp r hsd
    obtain ⟨x, hx, hreach⟩ := h.grounded l' hl' s' d' ht
    refine ⟨x, (mem_collectProperLabels_rename r).mpr hx, ?_⟩
    rw [← hsd]
    exact (reaches_rename hr).mpr hreach
  · rw [Statement.labels_mapLabel]
    intro l hl
    obtain ⟨l', hl', rfl⟩ := List.mem_map.mp hl
    exact Label.normal_rename r (h.normal l' hl')

/-- The label put for a temporary one is the lowest of the collected labels that reach it. -/
theorem Outcome.isLeast {inferred : Statement (Label L) L}
    {substitutions : List (L × Int × Int)} (out : Outcome sorting ast inferred substitutions)
    (h : Inferable sorting ast) {l : Label L} (hl : l ∈ ast.labels) {s d : Int}
    (hsd : .temp s d ∈ l.leaves) :
    IsLeast {x | x ∈ collectProperLabels sorting ast ∧
      Reaches (Flow (collectConstraints (.concrete ⊤) ast)) x (.temp s d)}
      (inferredLabel substitutions s d) := by
  obtain ⟨c, hc, collected, reached⟩ := out.put l (h.grounded l hl) s d hsd
  rw [inferredLabel_eq hc]
  refine ⟨⟨collected, reached⟩, ?_⟩
  rintro x ⟨hx, hreach⟩
  obtain ⟨y, hy, hle⟩ := out.reached x _ hx hreach
  obtain rfl : c = y := by simpa [hc] using hy
  exact hle

/-- Both outcomes put the lowest of the same labels. -/
theorem Outcome.inferred_rename {inferred inferred' : Statement (Label L) L}
    {substitutions substitutions' : List (L × Int × Int)}
    (out : Outcome sorting ast inferred substitutions) (h : Inferable sorting ast)
    (hr : Function.Injective r)
    (out' : Outcome sorting (ast.mapLabel (Label.rename r)) inferred' substitutions') :
    inferred' = inferred := by
  have meaning : ∀ l ∈ ast.labels, (l.rename r).eval (inferredLabel substitutions') =
      l.eval (inferredLabel substitutions) := by
    intro l hl
    rw [Label.eval_rename]
    apply Label.eval_congr
    intro s d hsd
    have hl' : l.rename r ∈ (ast.mapLabel (Label.rename r)).labels := by
      rw [Statement.labels_mapLabel]
      exact List.mem_map_of_mem hl
    have hsd' : .temp (r (s, d)).1 (r (s, d)).2 ∈ (l.rename r).leaves := by
      rw [Label.leaves_rename]
      exact List.mem_map_of_mem hsd
    have least := out.isLeast h hl hsd
    have least' := out'.isLeast (h.rename hr) hl' hsd'
    have reaches : ∀ x, Reaches (Flow (collectConstraints (.concrete ⊤)
        (ast.mapLabel (Label.rename r)))) x (.temp (r (s, d)).1 (r (s, d)).2) ↔
        Reaches (Flow (collectConstraints (.concrete ⊤) ast)) x (.temp s d) :=
      fun x => reaches_rename hr (v := .temp s d)
    simp only [mem_collectProperLabels_rename, reaches] at least'
    exact least'.unique least
  have same : (ast.mapLabel (Label.rename r)).mapLabel (Label.eval (inferredLabel substitutions')) =
      ast.mapLabel (Label.eval (inferredLabel substitutions)) := by
    rw [Statement.mapLabel_mapLabel]
    exact Statement.mapLabel_congr _ _ meaning
  rw [out.inferred_eq, out'.inferred_eq, same]

/-- The result depends on the set of constraints only, and not on the names of the
temporary labels. -/
theorem Inferable.inferLabelsFrom_rename (h : Inferable sorting ast)
    (hr : Function.Injective r) {constraints : List (Constraint L)}
    (same : ∀ c, c ∈ constraints ↔
      c ∈ collectConstraints (.concrete ⊤) (ast.mapLabel (Label.rename r))) :
    inferLabelsFrom sorting (ast.mapLabel (Label.rename r)) constraints =
      inferLabels sorting ast := by
  have original := h.outcome fun _ => Iff.rfl
  have renamed := (h.rename hr).outcome same
  rw [← inferLabels_eq] at original
  cases result : inferLabels sorting ast with
  | error e =>
      obtain ⟨rfl, conflict⟩ := original.1 e result
      cases result' : inferLabelsFrom sorting (ast.mapLabel (Label.rename r)) constraints with
      | error e' => rw [(renamed.1 e' result').1]
      | ok inferred' =>
          obtain ⟨_, out'⟩ := renamed.2 inferred' result'
          exact absurd ((conflict_rename hr).mpr conflict) out'.noConflict
  | ok inferred =>
      obtain ⟨substitutions, out⟩ := original.2 inferred result
      cases result' : inferLabelsFrom sorting (ast.mapLabel (Label.rename r)) constraints with
      | error e' =>
          have conflict := (renamed.1 e' result').2
          exact absurd ((conflict_rename hr).mp conflict) out.noConflict
      | ok inferred' =>
          obtain ⟨substitutions', out'⟩ := renamed.2 inferred' result'
          exact congrArg Except.ok (out.inferred_rename h hr out')

end Rename

section Solutions

variable {ρ σ : Int → Int → L}

/-- A label is temporary or its concrete label is its meaning. -/
def Pinned (ρ : Int → Int → L) (l : Label L) : Prop :=
  l.isTemp = true ∨ findConcreteLabel l = .ok (some (l.eval ρ))

theorem eval_collapseTarget {l v : Label L} (pinned : Pinned ρ l) (h : collapseTarget l = .ok v) :
    v.eval ρ = l.eval ρ := by
  obtain htemp | hfound := pinned
  · obtain ⟨s, d, rfl⟩ := Label.isTemp_iff.mp htemp
    obtain rfl : _ = v := by simpa [collapseTarget_temp] using h
    rfl
  · unfold collapseTarget at h
    rw [hfound] at h
    cases l with
    | concrete a =>
        obtain rfl : _ = v := by simpa [bind, Except.bind, FlowsTo] using h
        rfl
    | temp s d => simp [findConcreteLabel] at hfound
    | minOf a b =>
        obtain rfl : _ = v := by simpa [bind, Except.bind] using h
        rfl

theorem collapseTarget_eq_temp {l : Label L} {s d : Int} (h : collapseTarget l = .ok (.temp s d)) :
    l = .temp s d := by
  obtain ⟨o, ho, h⟩ := except_bind_ok h
  cases l with
  | concrete a =>
      obtain rfl : some a = o := by simpa [findConcreteLabel] using ho
      simp at h
  | temp s' d' =>
      obtain rfl : none = o := by simpa [findConcreteLabel] using ho
      simpa using h
  | minOf a b =>
      obtain ⟨y, rfl, -⟩ | ⟨-, htemp⟩ := findConcreteLabel_mem ho
      · simp at h
      · simp [Label.isTemp] at htemp

theorem Reaches.eval_le {flow : Label L → Label L → Prop} {x : L} {v : Label L}
    (h : Reaches flow x v) (le : ∀ u v, flow u v → v.eval ρ ≤ u.eval ρ) : v.eval ρ ≤ x := by
  induction h with
  | direct hflow => exact le _ _ hflow
  | through _ hflow ih => exact (le _ _ hflow).trans ih

variable [BoundedOrder L]

/-- Labels for the temporary ones that satisfy every collected constraint. -/
def Solution (ast : Statement (Label L) L) (ρ : Int → Int → L) : Prop :=
  ∀ c ∈ collectConstraints (.concrete ⊤) ast, FlowsTo (c.high.eval ρ) (c.low.eval ρ)

/-- Each label that a source is the minimum of must flow to the target. -/
def MustFlow (ast : Statement (Label L) L) (u v : Label L) : Prop :=
  ∃ c ∈ collectConstraints (.concrete ⊤) ast, u ∈ c.high.leaves ∧ c.low = v

/-- The temporary label is on a node of the tree. -/
def OnTree (ast : Statement (Label L) L) (s d : Int) : Prop :=
  ∃ l ∈ ast.labels, .temp s d ∈ l.leaves

/-- Inference accepts the tree and gives each temporary label the strongest label it has in
any solution, which is the greatest lower bound of what must flow to it. Permuting or
duplicating the constraints and renaming the temporary labels changes nothing. -/
def InfersStrongest (sorting : Library.ComparisonSort) (ast : Statement (Label L) L) : Prop :=
  (∃ ρ, inferLabels sorting ast = .ok ((ast.mapLabel (Label.eval ρ)).mapLabel .concrete) ∧
    ∀ s d, OnTree ast s d → IsGreatest {l | ∃ σ, Solution ast σ ∧ σ s d = l} (ρ s d) ∧
      IsGLB {x | Reaches (MustFlow ast) x (.temp s d)} (ρ s d)) ∧
  ∀ (r : Int × Int → Int × Int) (constraints : List (Constraint L)), Function.Injective r →
    (∀ c, c ∈ constraints ↔ c ∈ collectConstraints (.concrete ⊤) (ast.mapLabel (Label.rename r))) →
    inferLabelsFrom sorting (ast.mapLabel (Label.rename r)) constraints = inferLabels sorting ast

/-- What a pointer flows to pins the label of what it points to. -/
theorem Pinned.lower {a : Label L} {c : L} (h : Pinned ρ a) (flows : c ≤ a.eval ρ) :
    Pinned ρ (Label.resolvedMin a (.concrete c)) ∧
      (Label.resolvedMin a (.concrete c)).eval ρ = c := by
  have meaning : (Label.resolvedMin a (.concrete c)).eval ρ = c := by
    rw [Label.eval_resolvedMin, Label.eval_concrete]
    exact min_eq_right flows
  refine ⟨Or.inr ?_, meaning⟩
  rw [meaning]
  obtain hr | hr := Label.resolvedMin_cases a (.concrete c)
  · rw [hr] at meaning
    rw [hr, ← meaning]
    rfl
  · obtain hr' | ⟨x, y, -, -, hr'⟩ := Label.resolve_cases a (.concrete c)
    · rw [hr, hr']
      simp only [findConcreteLabel]
      obtain htemp | hfound := h
      · obtain ⟨s, d, rfl⟩ := Label.isTemp_iff.mp htemp
        rfl
      · rw [hfound]
        by_cases back : FlowsTo c (a.eval ρ)
        · have same : a.eval ρ = c := le_antisymm back flows
          simp [bind, Except.bind, pickMinMatch, same, FlowsTo]
        · simp [bind, Except.bind, pickMinMatch, back]
    · rw [hr.trans hr'] at meaning
      rw [hr, hr', ← meaning]
      rfl

variable {host : HostTypes L} {ast : Statement (Label L) L} {env : TypeEnv (Label L) L}

/-- A solution pins the target of every constraint: where a pointer is dereferenced, the
pointer flows to the label of the handle. -/
theorem Solution.pinned (henv : ConcreteEnv env)
    (h : Typed .checking host (fun l => l.isTemp = true) env ast) (hρ : Solution ast ρ) :
    ∀ c ∈ collectConstraints (.concrete ⊤) ast, Pinned ρ c.low := by
  refine typed_targets (P := Pinned ρ) (S := fun c => FlowsTo (c.high.eval ρ) (c.low.eval ρ))
    ?_ ?_ ?_ ?_ h hρ
  · intro c
    exact Or.inr rfl
  · intro a c ha flows
    obtain ⟨once, meaning⟩ := ha.lower flows
    exact (once.lower meaning.ge).1
  · intro l hl
    exact Or.inl hl
  · intro b hb
    obtain ⟨c, hc⟩ := henv.bindingLabel hb
    rw [hc]
    exact Or.inr rfl

theorem Solution.flow_le (hρ : Solution ast ρ)
    (pinned : ∀ c ∈ collectConstraints (.concrete ⊤) ast, Pinned ρ c.low) {u v : Label L}
    (h : Flow (collectConstraints (.concrete ⊤) ast) u v) : v.eval ρ ≤ u.eval ρ := by
  obtain ⟨c, hc, hu, hv⟩ := h
  calc v.eval ρ = c.low.eval ρ := eval_collapseTarget (pinned c hc) hv
    _ ≤ c.high.eval ρ := hρ c hc
    _ ≤ u.eval ρ := (Label.eval_le_iff ρ).mpr ⟨u, hu, le_rfl⟩

theorem Solution.mustFlow_le (hρ : Solution ast ρ) {u v : Label L} (h : MustFlow ast u v) :
    v.eval ρ ≤ u.eval ρ := by
  obtain ⟨c, hc, hu, rfl⟩ := h
  exact (hρ c hc).trans ((Label.eval_le_iff ρ).mpr ⟨u, hu, le_rfl⟩)

/-- A program with a solution is accepted. -/
theorem Solution.noConflict (sorting : Library.ComparisonSort) (hρ : Solution ast ρ)
    (pinned : ∀ c ∈ collectConstraints (.concrete ⊤) ast, Pinned ρ c.low) :
    ¬ Conflict (Flow (collectConstraints (.concrete ⊤) ast)) (collectProperLabels sorting ast) := by
  rintro ⟨x, -, y, hreach, violated⟩
  exact violated (hreach.eval_le fun u v => hρ.flow_le pinned)

/-- Collapsing changes nothing on the way to a temporary label. -/
theorem reaches_mustFlow {x : L} {s d : Int}
    (h : Reaches (Flow (collectConstraints (.concrete ⊤) ast)) x (.temp s d)) :
    Reaches (MustFlow ast) x (.temp s d) := by
  have uncollapsed : ∀ u s d, Flow (collectConstraints (.concrete ⊤) ast) u (.temp s d) →
      MustFlow ast u (.temp s d) := by
    rintro u s d ⟨c, hc, hu, hv⟩
    exact ⟨c, hc, hu, collapseTarget_eq_temp hv⟩
  generalize ht : Label.temp s d = t at h
  induction h generalizing s d with
  | direct hflow =>
      subst ht
      exact .direct (uncollapsed _ _ _ hflow)
  | through _ hflow ih =>
      subst ht
      exact .through (ih rfl) (uncollapsed _ _ _ hflow)

variable {sorting : Library.ComparisonSort}

theorem collectConstraints_onTree {c : Constraint L}
    (hc : c ∈ collectConstraints (.concrete ⊤) ast) {s d : Int}
    (h : .temp s d ∈ c.high.leaves ∨ .temp s d ∈ c.low.leaves) : OnTree ast s d := by
  obtain h | h := h
  · refine collectConstraints_high (P := fun l => ∀ s d, .temp s d ∈ l.leaves → OnTree ast s d)
      ?_ ?_ ?_ ?_ c hc s d h
    · intro x s d hsd
      simp [Label.leaves] at hsd
    · intro a b ha hb s d hsd
      exact (List.mem_append.mp hsd).elim (ha s d) (hb s d)
    · intro s d hsd
      simp [Label.leaves] at hsd
    · intro l hl s d hsd
      exact ⟨l, hl, hsd⟩
  · obtain hl | ⟨x, hx⟩ := collectConstraints_low hc
    · exact ⟨_, hl, h⟩
    · simp [hx, Label.leaves] at h

/-- The strongest labels of all solutions are a solution: a target is one temporary label
or is the same in every solution. -/
theorem Solution.greatest (hρ : Solution ast ρ)
    (pinned : ∀ c ∈ collectConstraints (.concrete ⊤) ast, Pinned ρ c.low)
    (greatest : ∀ s d, OnTree ast s d → IsGreatest {l | ∃ τ, Solution ast τ ∧ τ s d = l} (σ s d)) :
    Solution ast σ := by
  intro c hc
  have raise : ∀ τ, Solution ast τ → c.high.eval τ ≤ c.high.eval σ := by
    intro τ hτ
    apply Label.eval_mono
    intro s d hsd
    exact (greatest s d (collectConstraints_onTree hc (Or.inl hsd))).2 ⟨τ, hτ, rfl⟩
  obtain htemp | hfound := pinned c hc
  · obtain ⟨s, d, hsd⟩ := Label.isTemp_iff.mp htemp
    obtain ⟨τ, hτ, attained⟩ :=
      (greatest s d (collectConstraints_onTree hc (Or.inr (by simp [hsd, Label.leaves])))).1
    have met := hτ c hc
    rw [hsd, Label.eval_temp, attained] at met
    rw [hsd, Label.eval_temp]
    exact met.trans (raise τ hτ)
  · obtain ⟨y, hy, hmem⟩ | ⟨hn, -⟩ := findConcreteLabel_mem hfound
    · obtain rfl : c.low.eval ρ = y := by simpa using hy
      calc c.low.eval σ ≤ c.low.eval ρ := (Label.eval_le_iff σ).mpr ⟨_, hmem, le_rfl⟩
        _ ≤ c.high.eval ρ := hρ c hc
        _ ≤ c.high.eval σ := raise ρ hρ
    · simp at hn

/-- The labels put are the strongest once they satisfy every constraint. -/
theorem Outcome.greatest {inferred : Statement (Label L) L}
    {substitutions : List (L × Int × Int)} (out : Outcome sorting ast inferred substitutions)
    (henv : ConcreteEnv env) (h : Typed .checking host (fun l => l.isTemp = true) env ast)
    (solved : Solution ast (inferredLabel substitutions)) {s d : Int} (hsd : OnTree ast s d) :
    IsGreatest {l | ∃ τ, Solution ast τ ∧ τ s d = l} (inferredLabel substitutions s d) ∧
      IsGLB {x | Reaches (MustFlow ast) x (.temp s d)} (inferredLabel substitutions s d) := by
  obtain ⟨l, hl, hsd⟩ := hsd
  obtain ⟨⟨-, reached⟩, -⟩ := out.isLeast (typed_inferable sorting henv h) hl hsd
  refine ⟨⟨⟨_, solved, rfl⟩, ?_⟩, ?_, ?_⟩
  · rintro l ⟨τ, hτ, rfl⟩
    exact reached.eval_le fun u v => hτ.flow_le (hτ.pinned henv h)
  · intro x hreach
    exact hreach.eval_le fun u v => solved.mustFlow_le
  · intro x hx
    exact hx (reaches_mustFlow reached)

theorem infersStrongest_iff (henv : ConcreteEnv env)
    (h : Typed .checking host (fun l => l.isTemp = true) env ast) (hρ : Solution ast ρ) :
    InfersStrongest sorting ast ↔ MissedSourcesBounded sorting ast := by
  have pinned := hρ.pinned henv h
  have noConflict := hρ.noConflict sorting pinned
  constructor
  · rintro ⟨⟨σ, result, strongest⟩, -⟩
    have sound : InferenceSound sorting ast := by
      unfold InferenceSound
      rw [result]
      exact ⟨σ, rfl, hρ.greatest pinned fun s d hsd => (strongest s d hsd).1⟩
    exact ((inferenceSound_iff henv h).mp sound).resolve_left noConflict
  · intro bounded
    have inferable := typed_inferable sorting henv h
    refine ⟨?_, fun r constraints hr same => inferable.inferLabelsFrom_rename hr same⟩
    have outcome := inferLabels_outcome sorting henv h
    cases result : inferLabels sorting ast with
    | error e => exact absurd (outcome.1 e result).2 noConflict
    | ok inferred =>
        obtain ⟨substitutions, out⟩ := outcome.2 inferred result
        refine ⟨inferredLabel substitutions, congrArg Except.ok out.inferred_eq, ?_⟩
        intro s d hsd
        exact out.greatest henv h (out.solution henv h bounded) hsd

/-- For every typechecked transaction whose constraints have a solution. -/
theorem inferLabels_strongest_iff (sorting : Library.ComparisonSort) (host : HostTypes L)
    (lookup : Lookup (Label L) L) (inputs : List (VarName × Ty L)) (body : Parsed.Stmt L)
    (ast : Statement (Label L) L) (h : typecheckTransaction host lookup inputs body = some ast)
    (solvable : ∃ ρ, Solution ast ρ) :
    InfersStrongest sorting ast ↔ MissedSourcesBounded sorting ast := by
  obtain ⟨ρ, hρ⟩ := solvable
  exact infersStrongest_iff (transactionEnv_concrete inputs) (typecheck_typed h) hρ

end Solutions

section FourLabels

theorem readStrong_strongest : InfersStrongest .insertion readStrong := by
  refine (inferLabels_strongest_iff .insertion handlesOnly (Lookup.first _ _) strongInput
    (.letRemote yName hName .nil) readStrong (by decide) ⟨fun _ _ => strong, ?_⟩).mpr ?_
  · show ∀ c ∈ collectConstraints (.concrete ⊤) readStrong,
      FlowsTo (c.high.eval fun _ _ => strong) (c.low.eval fun _ _ => strong)
    decide
  · intro c hc x hx missed
    have collected : ∀ c ∈ collectConstraints (.concrete ⊤) readStrong,
        ∀ x ∈ c.high.properLabels, x ∈ collectProperLabels .insertion readStrong := by decide
    exact absurd (collected c hc x hx) missed

/-- The label of `z` is at most strong in every solution, and `z` gets top. -/
theorem strongBelowCausal_notStrongest :
    typecheckTransaction handlesOnly (Lookup.first _ _)
        ((qName, .handle causal (.handle causal .int []) []) :: strongInput) strongBelowCausal =
      some strongBelowCausalAst ∧
    (∃ ρ, Solution strongBelowCausalAst ρ) ∧
    ¬ InfersStrongest .insertion strongBelowCausalAst := by
  refine ⟨by decide, ⟨fun _ _ => causal, ?_⟩, ?_⟩
  · show ∀ c ∈ collectConstraints (.concrete ⊤) strongBelowCausalAst,
      FlowsTo (c.high.eval fun _ _ => causal) (c.low.eval fun _ _ => causal)
    decide
  · rintro ⟨⟨ρ, result, strongest⟩, -⟩
    have inferred : inferLabels .insertion strongBelowCausalAst =
        .ok ((strongBelowCausalAst.mapLabel
          (Label.eval fun s _ => if s = 3 then ⊤ else causal)).mapLabel .concrete) := by decide
    have hz : ρ 3 3 = ⊤ := by
      have same := congrArg Statement.labels (Except.ok.inj (result.symm.trans inferred))
      simp [strongBelowCausalAst, Statement.mapLabel, Statement.labels, VarRef.mapLabel] at same
      exact same.2.2
    have onTree : OnTree strongBelowCausalAst 3 3 :=
      ⟨.temp 3 3, by decide, List.mem_singleton_self _⟩
    obtain ⟨σ, hσ, attained⟩ := (strongest 3 3 onTree).1.1
    have violated := hσ ⟨.minOf (.minOf (.concrete ⊤) (.concrete ⊤)) (.concrete strong),
      .temp 3 3, .boundExpressionPc⟩ (by decide)
    simp only [FlowsTo, Label.eval_minOf, Label.eval_concrete, Label.eval_temp, attained, hz]
      at violated
    exact absurd violated (by decide)

end FourLabels

end Inference

end MixT
