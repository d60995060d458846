import MixT.Inference.Solver

/-! # What the solver keeps true

A concrete label reaches what it flows to along the collapsed constraints. Each
constraint in hand is justified by the original ones, and each original constraint
whose source is a collected label is met, trivial or still in hand. -/

namespace MixT.Inference

open Library

variable {L : Type*} [LinearOrder L]

/-- The flows along which a concrete label reaches another label. Only temporary
labels pass a flow on. -/
inductive Reaches (flow : Label L → Label L → Prop) (source : L) : Label L → Prop
  | direct {v : Label L} : flow (.concrete source) v → Reaches flow source v
  | through {s d : Int} {v : Label L} :
      Reaches flow source (.temp s d) → flow (.temp s d) v → Reaches flow source v

/-- A collected label reaches one that it may not flow to. -/
def Conflict (flow : Label L → Label L → Prop) (collected : List L) : Prop :=
  ∃ source ∈ collected, ∃ y, Reaches flow source (.concrete y) ∧ ¬ FlowsTo source y

section Justified

variable (flow : Label L → Label L → Prop) (collected : List L)

/-- The constraint stands for a chain of flows that has not been followed to its
end, or has a target that was put for a temporary label. -/
def Justified (remaining : List L) (c : Constraint L) : Prop :=
  match c.high with
  | .concrete x => x ∈ collected →
      (x ∈ remaining ∧ Reaches flow x c.low) ∨ ∃ y, c.low = .concrete y ∧ y ≤ x
  | .temp s d => flow (.temp s d) c.low ∨ ∃ y, c.low = .concrete y ∧ ∀ z ∈ remaining, y ≤ z
  | .minOf _ _ => False

variable {flow collected} {label : L} {later : List L}

theorem Justified.substitute {c : Constraint L} (lowest : ∀ z ∈ later, label ≤ z)
    (h : Justified flow collected (label :: later) c) {s d : Int}
    (reached : Reaches flow label (.temp s d)) :
    Justified flow collected (label :: later)
      (c.substitute (.concrete label) (.temp s d)) := by
  have lowest : ∀ z ∈ label :: later, label ≤ z := by simpa using lowest
  obtain ⟨high, low, why⟩ := c
  cases high with
  | concrete x =>
      intro hx
      obtain ⟨hrem, hreach⟩ | ⟨y, rfl, hy⟩ := h hx
      · by_cases target : .temp s d = low
        · exact Or.inr ⟨label, by simp [Constraint.substitute, target], lowest x hrem⟩
        · exact Or.inl ⟨hrem, by simpa [Constraint.substitute, target] using hreach⟩
      · exact Or.inr ⟨y, by simp [Constraint.substitute], hy⟩
  | temp s' d' =>
      by_cases source : s = s' ∧ d = d'
      · obtain ⟨rfl, rfl⟩ := source
        simp only [Constraint.substitute, if_true, Justified]
        intro _
        obtain hflow | ⟨y, rfl, hy⟩ := h
        · by_cases target : .temp s d = low
          · exact Or.inr ⟨label, by simp [target], le_rfl⟩
          · exact Or.inl ⟨List.mem_cons_self .., by
              simpa [target] using Reaches.through reached hflow⟩
        · exact Or.inr ⟨y, by simp, hy label (List.mem_cons_self ..)⟩
      · simp only [Constraint.substitute, Label.temp.injEq, if_neg source, Justified]
        obtain hflow | ⟨y, rfl, hy⟩ := h
        · by_cases target : .temp s d = low
          · exact Or.inr ⟨label, by simp [target], lowest⟩
          · exact Or.inl (by simpa [target] using hflow)
        · exact Or.inr ⟨y, by simp, hy⟩
  | minOf a b => exact h.elim

variable (sorting : Library.ComparisonSort)

/-- A turn keeps constraints justified and puts its label only where it reaches, and
it fails only on a conflict. -/
theorem replaceAllLessThan_justified {n : Nat} (ast : Statement (Label L) L)
    (constraints : List (Constraint L)) (lowest : ∀ z ∈ later, label ≤ z)
    (mem : label ∈ collected) (atomic : ∀ c ∈ constraints, Atomic c)
    (justified : ∀ c ∈ constraints, Justified flow collected (label :: later) c) :
    (∀ r, replaceAllLessThan sorting label n ast constraints = .ok r →
      (∀ c ∈ r.constraints, Justified flow collected (label :: later) c) ∧
      ∀ x ∈ r.substitutions, Reaches flow label (.temp x.2.1 x.2.2)) ∧
    (∀ e, replaceAllLessThan sorting label n ast constraints = .error e →
      e = .flowViolation ∧ Conflict flow collected) := by
  induction n generalizing ast constraints with
  | zero =>
      refine ⟨fun r h => ?_, fun e h => by simp [replaceAllLessThan] at h⟩
      obtain rfl : _ = r := by simpa [replaceAllLessThan] using h
      simp
  | succ n ih =>
      cases constraints with
      | nil =>
          refine ⟨fun r h => ?_, fun e h => by simp [replaceAllLessThan] at h⟩
          obtain rfl : _ = r := by simpa [replaceAllLessThan] using h
          simp
      | cons c rest =>
          have atomicRest : ∀ c ∈ rest, Atomic c := fun c hc => atomic c (List.mem_cons_of_mem _ hc)
          have justifiedRest : ∀ c ∈ rest, Justified flow collected (label :: later) c :=
            fun c hc => justified c (List.mem_cons_of_mem _ hc)
          have here := justified c (List.mem_cons_self ..)
          obtain ⟨high, low, why⟩ := c
          have keepFirst : ∀ r : Replaced L,
              (∀ c ∈ r.constraints, Justified flow collected (label :: later) c) →
              ∀ c ∈ minimizeConstraints (⟨high, low, why⟩ :: r.constraints),
                Justified flow collected (label :: later) c := by
            intro r hr c hc
            obtain rfl | hc := List.mem_cons.mp (mem_minimizeConstraints.mp hc).1
            · exact here
            · exact hr c hc
          by_cases source : high = .concrete label
          · subst source
            cases low with
            | temp s d =>
                have reached : Reaches flow label (.temp s d) := by
                  obtain ⟨-, h⟩ | ⟨y, hy, -⟩ := here mem
                  · exact h
                  · simp at hy
                have next := ih
                  (ast.mapLabel (Label.labelReplace s d (.concrete label)))
                  (sorting.sort Constraint.lte
                    (rest.map (Constraint.substitute (.concrete label) (.temp s d)))) ?_ ?_
                · constructor
                  · intro r h
                    simp only [replaceAllLessThan, if_true] at h
                    obtain ⟨r', hr', h⟩ := except_bind_ok h
                    obtain rfl : _ = r := by simpa using h
                    obtain ⟨hcs, hsubs⟩ := next.1 r' hr'
                    constructor
                    · intro c hc
                      obtain ⟨hc, reflexive⟩ := mem_minimizeConstraints.mp hc
                      obtain rfl | hc := List.mem_cons.mp hc
                      · exact absurd rfl reflexive
                      · exact hcs c hc
                    · intro x hx
                      obtain hx | hx := List.mem_append.mp hx
                      · exact hsubs x hx
                      · obtain rfl : x = (label, s, d) := by simpa using hx
                        exact reached
                  · intro e h
                    simp only [replaceAllLessThan, if_true] at h
                    obtain h | ⟨r', -, h⟩ := except_bind_error h
                    · exact next.2 e h
                    · simp at h
                · intro c hc
                  obtain ⟨d, hd, rfl⟩ := List.mem_map.mp (sorting.mem_sort.mp hc)
                  exact substitute_atomic (atomicRest d hd) _ _ _
                · intro c hc
                  obtain ⟨d, hd, rfl⟩ := List.mem_map.mp (sorting.mem_sort.mp hc)
                  exact (justifiedRest d hd).substitute lowest reached
            | concrete y =>
                have next := ih ast rest atomicRest justifiedRest
                constructor
                · intro r h
                  simp only [replaceAllLessThan, if_true] at h
                  obtain ⟨r', hr', h⟩ := except_bind_ok h
                  split at h
                  · obtain rfl : _ = r := by simpa using h
                    obtain ⟨hcs, hsubs⟩ := next.1 r' hr'
                    exact ⟨keepFirst r' hcs, hsubs⟩
                  · simp at h
                · intro e h
                  simp only [replaceAllLessThan, if_true] at h
                  obtain h | ⟨r', -, h⟩ := except_bind_error h
                  · exact next.2 e h
                  · split at h
                    · simp at h
                    · rename_i violated
                      obtain rfl : _ = e := by simpa using h
                      have violated : ¬ y ≤ label := fun hle =>
                        violated (checkFlowViolation_iff.mpr ⟨y, rfl, hle⟩)
                      obtain ⟨-, h⟩ | ⟨z, hz, hle⟩ := here mem
                      · exact ⟨rfl, label, mem, y, h, violated⟩
                      · obtain rfl : y = z := by simpa using hz
                        exact absurd hle violated
            | minOf a b => simpa [Label.isMinOf] using (atomic _ (List.mem_cons_self ..)).2
          · have next := ih ast rest atomicRest justifiedRest
            constructor
            · intro r h
              simp only [replaceAllLessThan, if_neg source] at h
              obtain ⟨r', hr', h⟩ := except_bind_ok h
              obtain rfl : _ = r := by simpa using h
              obtain ⟨hcs, hsubs⟩ := next.1 r' hr'
              exact ⟨keepFirst r' hcs, hsubs⟩
            · intro e h
              simp only [replaceAllLessThan, if_neg source] at h
              obtain h | ⟨r', -, h⟩ := except_bind_error h
              · exact next.2 e h
              · simp at h

end Justified

section Helper

variable (sorting : Library.ComparisonSort)

/-- Both labels are concrete and the first flows to the second. -/
def Met (high low : Label L) : Prop := ∃ x y, high = .concrete x ∧ low = .concrete y ∧ y ≤ x

/-- A source that is concrete is a collected label. -/
def Collected (collected : List L) (high : Label L) : Prop := ∀ x, high = .concrete x → x ∈ collected

/-- The state between turns, with the labels whose turn is to come. -/
structure Solving (flow : Label L → Label L → Prop) (collected : List L)
    (substitutions : List (L × Int × Int)) (constraints : List (Constraint L))
    (remaining : List L) : Prop where
  tracked : ∀ u v, flow u v → Collected collected u →
    Met (applySubstitutions substitutions u) (applySubstitutions substitutions v) ∨
    applySubstitutions substitutions u = applySubstitutions substitutions v ∨
    ∃ why, ⟨applySubstitutions substitutions u, applySubstitutions substitutions v, why⟩
      ∈ constraints
  justified : ∀ c ∈ constraints, Justified flow collected remaining c
  atomic : ∀ c ∈ constraints, Atomic c
  put : ∀ x ∈ substitutions, x.1 ∈ collected ∧ Reaches flow x.1 (.temp x.2.1 x.2.2) ∧
    ∀ z ∈ remaining, x.1 ≤ z

variable {flow : Label L → Label L → Prop} {collected : List L}
  {substitutions : List (L × Int × Int)} {constraints : List (Constraint L)}

theorem Solving.collected_image {remaining : List L}
    (h : Solving flow collected substitutions constraints remaining) {u : Label L} {x : L}
    (hu : Collected collected u) (atom : u.isMinOf = false)
    (hx : applySubstitutions substitutions u = .concrete x) : x ∈ collected := by
  cases u with
  | concrete y =>
      obtain rfl : y = x := by simpa using hx
      exact hu y rfl
  | temp s d =>
      obtain same | ⟨c, hc, replaced⟩ := applySubstitutions_temp substitutions s d
      · simp [same] at hx
      · obtain rfl : c = x := by simpa [replaced] using hx
        exact (h.put _ hc).1
  | minOf a b => simp [Label.isMinOf] at atom

theorem Solving.turn {label : L} {later : List L} {ast : Statement (Label L) L} {r : Replaced L}
    (flowAtomic : ∀ u v, flow u v → u.isMinOf = false)
    (lowest : ∀ z ∈ later, label ≤ z) (mem : label ∈ collected)
    (h : Solving flow collected substitutions constraints (label :: later))
    (hrun : replaceAllLessThan sorting label (sorting.sort Constraint.lte constraints).length ast
      (sorting.sort Constraint.lte constraints) = .ok r) :
    Solving flow collected (r.substitutions ++ substitutions) r.constraints later := by
  have atomicSorted : ∀ c ∈ sorting.sort Constraint.lte constraints, Atomic c :=
    fun c hc => h.atomic c (sorting.mem_sort.mp hc)
  have turn := replaceAllLessThan_turn sorting le_rfl (sort_concreteFirst sorting constraints)
    atomicSorted hrun
  obtain ⟨hjust, hput⟩ := (replaceAllLessThan_justified sorting _ _ lowest mem atomicSorted
    fun c hc => h.justified c (sorting.mem_sort.mp hc)).1 r hrun
  refine ⟨?_, ?_, fun c hc => (turn.left c hc).1, ?_⟩
  · intro u v huv hu
    simp only [applySubstitutions_append]
    obtain ⟨x, y, hx, hy, hle⟩ | same | ⟨why, hmem⟩ := h.tracked u v huv hu
    · exact Or.inl ⟨x, y, by simp [hx], by simp [hy], hle⟩
    · exact Or.inr (Or.inl (by rw [same]))
    · obtain ⟨hhigh, y, hlow, hle⟩ | same | stays | ⟨⟨x, hx⟩, htemp, stale⟩ :=
        turn.kept _ (sorting.mem_sort.mpr hmem)
      · exact Or.inl ⟨label, y, hhigh, hlow, hle⟩
      · exact Or.inr (Or.inl same)
      · exact Or.inr (Or.inr ⟨why, stays⟩)
      · -- the target was put since the constraint was set aside, by a lower label
        left
        simp only at hx htemp stale
        refine ⟨x, label, by simp [hx], stale, ?_⟩
        have hxmem : x ∈ collected := h.collected_image hu (flowAtomic u v huv) hx
        have hj := h.justified _ hmem
        simp only [Justified, hx] at hj
        obtain ⟨hrem, -⟩ | ⟨y, hy, -⟩ := hj hxmem
        · obtain rfl | hrem := List.mem_cons.mp hrem
          · exact le_rfl
          · exact lowest x hrem
        · simp [hy, Label.isTemp] at htemp
  · intro c hc
    have before := hjust c hc
    have leftOver := (turn.left c hc).2
    unfold Justified at before ⊢
    split
    · rename_i x hx
      intro hxmem
      simp only [hx] at before
      obtain ⟨hrem, hreach⟩ | met := before hxmem
      · obtain rfl | hrem := List.mem_cons.mp hrem
        · exact Or.inr (leftOver hx)
        · exact Or.inl ⟨hrem, hreach⟩
      · exact Or.inr met
    · rename_i s d hsd
      simp only [hsd] at before
      obtain hflow | ⟨y, hy, hle⟩ := before
      · exact Or.inl hflow
      · exact Or.inr ⟨y, hy, fun z hz => hle z (List.mem_cons_of_mem _ hz)⟩
    · rename_i a b hab
      simp [hab] at before
  · intro x hx
    obtain hx | hx := List.mem_append.mp hx
    · have hlabel := turn.labels x hx
      exact ⟨hlabel ▸ mem, hlabel ▸ hput x hx, hlabel ▸ lowest⟩
    · obtain ⟨hxmem, hreach, hle⟩ := h.put x hx
      exact ⟨hxmem, hreach, fun z hz => hle z (List.mem_cons_of_mem _ hz)⟩

/-- All turns together: the tree has the labels that were put, and a failure is a
conflict. -/
theorem inferLabelsHelper_solving {labels : List L} (ast : Statement (Label L) L)
    (flowAtomic : ∀ u v, flow u v → u.isMinOf = false)
    (sorted : labels.Pairwise (· < ·)) (mem : ∀ l ∈ labels, l ∈ collected)
    (h : Solving flow collected substitutions constraints labels) :
    (∀ ast', inferLabelsHelper sorting labels (ast.mapLabel (applySubstitutions substitutions))
        constraints = .ok ast' →
      ∃ substitutions' constraints', ast' = ast.mapLabel (applySubstitutions substitutions') ∧
        Solving flow collected substitutions' constraints' []) ∧
    (∀ e, inferLabelsHelper sorting labels (ast.mapLabel (applySubstitutions substitutions))
        constraints = .error e →
      e = .flowViolation ∧ Conflict flow collected) := by
  induction labels generalizing substitutions constraints with
  | nil =>
      refine ⟨fun ast' hrun => ?_, fun e hrun => by simp [inferLabelsHelper] at hrun⟩
      obtain rfl : _ = ast' := by simpa [inferLabelsHelper] using hrun
      exact ⟨substitutions, constraints, rfl, h⟩
  | cons label later ih =>
      obtain ⟨lowest, sorted⟩ := List.pairwise_cons.mp sorted
      have lowest : ∀ z ∈ later, label ≤ z := fun z hz => (lowest z hz).le
      have memLabel : label ∈ collected := mem label (List.mem_cons_self ..)
      have memLater : ∀ l ∈ later, l ∈ collected := fun l hl => mem l (List.mem_cons_of_mem _ hl)
      constructor
      · intro ast' hrun
        obtain ⟨r, hr, hrun⟩ := except_bind_ok hrun
        have turn := replaceAllLessThan_turn sorting le_rfl (sort_concreteFirst sorting constraints)
          (fun c hc => h.atomic c (sorting.mem_sort.mp hc)) hr
        have next := h.turn sorting flowAtomic lowest memLabel hr
        rw [turn.ast_eq, ← mapLabel_applySubstitutions_append] at hrun
        exact (ih sorted memLater next).1 ast' hrun
      · intro e hrun
        obtain hrun | ⟨r, hr, hrun⟩ := except_bind_error hrun
        · exact (replaceAllLessThan_justified sorting _ _ lowest memLabel
            (fun c hc => h.atomic c (sorting.mem_sort.mp hc))
            (fun c hc => h.justified c (sorting.mem_sort.mp hc))).2 e hrun
        · have turn := replaceAllLessThan_turn sorting le_rfl
            (sort_concreteFirst sorting constraints)
            (fun c hc => h.atomic c (sorting.mem_sort.mp hc)) hr
          have next := h.turn sorting flowAtomic lowest memLabel hr
          rw [turn.ast_eq, ← mapLabel_applySubstitutions_append] at hrun
          exact (ih sorted memLater next).2 e hrun

/-- At the end, whatever a collected label reaches is concrete and no higher. -/
theorem Solving.reached {x : L} {v : Label L}
    (h : Solving flow collected substitutions constraints [])
    (flowAtomic : ∀ u v, flow u v → u.isMinOf = false)
    (hx : x ∈ collected) (hreach : Reaches flow x v) :
    ∃ y, applySubstitutions substitutions v = .concrete y ∧ y ≤ x := by
  have follow : ∀ u v x', flow u v → Collected collected u →
      applySubstitutions substitutions u = .concrete x' →
      ∃ y, applySubstitutions substitutions v = .concrete y ∧ y ≤ x' := by
    intro u v x' huv hu hx'
    obtain ⟨a, b, ha, hb, hle⟩ | same | ⟨why, hmem⟩ := h.tracked u v huv hu
    · obtain rfl : a = x' := by simpa [ha] using hx'
      exact ⟨b, hb, hle⟩
    · exact ⟨x', same ▸ hx', le_rfl⟩
    · have hj := h.justified _ hmem
      simp only [Justified, hx'] at hj
      obtain ⟨hrem, -⟩ | met := hj (h.collected_image hu (flowAtomic u v huv) hx')
      · simp at hrem
      · exact met
  induction hreach with
  | direct hflow =>
      exact follow _ _ x hflow (fun y hy => by
        obtain rfl : x = y := by simpa using hy
        exact hx) (by simp)
  | through hreach hflow ih =>
      obtain ⟨y, hy, hle⟩ := ih
      obtain ⟨z, hz, hle'⟩ := follow _ _ y hflow (fun _ hc => by simp at hc) hy
      exact ⟨z, hz, hle'.trans hle⟩

end Helper

end MixT.Inference
