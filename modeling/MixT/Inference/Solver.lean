import MixT.Inference.Constraints
import MixT.Library.Outcome

/-! # Eliminating temporary labels

The solver gives each concrete label a turn, lowest first. In its turn a label is
put for every temporary label that it must flow to, in the tree and in the
constraints that come after, and the constraints of other sources are set aside. -/

namespace MixT.Inference

open Library

section Solver

variable {L : Type*} [LinearOrder L]

/-- `less_than`. Only concrete labels can be asked whether they flow. -/
def lessThan : Label L → Label L → Bool
  | .temp l1 l2, .temp r1 r2 => if l1 < r1 then true else l2 < r2
  | _, .temp _ _ => true
  | .temp _ _, _ => false
  | .concrete a, .concrete b => FlowsTo b a
  | _, _ => false

/-- `must_flow_to::lte`. -/
def Constraint.lte (c d : Constraint L) : Bool :=
  if c.high.isTemp then
    if d.high.isTemp then lessThan c.low d.low else false
  else if d.high.isTemp then true
  else if lessThan c.high d.high then true else lessThan c.low d.low

/-- `must_flow_to::substitute`. -/
def Constraint.substitute (new old : Label L) (c : Constraint L) : Constraint L :=
  ⟨if old = c.high then new else c.high, if old = c.low then new else c.low, c.why⟩

/-- `check_flow_violation`. -/
def checkFlowViolation (source : L) : Label L → Bool
  | .concrete target => FlowsTo source target
  | _ => false

/-- `replace_all_less_than_ret`. -/
structure Replaced (L : Type*) where
  ast : Statement (Label L) L
  constraints : List (Constraint L)
  substitutions : List (L × Int × Int)

variable (sorting : Library.ComparisonSort) (label : L)

/-- `replace_all_less_than`. The fuel bounds the number of constraints. -/
def replaceAllLessThan : Nat → Statement (Label L) L → List (Constraint L) →
    Except InferError (Replaced L)
  | 0, ast, _ => .ok ⟨ast, [], []⟩
  | _ + 1, ast, [] => .ok ⟨ast, [], []⟩
  | fuel + 1, ast, c :: rest =>
      if c.high = .concrete label then
        match c.low with
        | .temp to1 to2 => do
            let newAst := ast.mapLabel (Label.labelReplace to1 to2 (.concrete label))
            let substituted := rest.map (Constraint.substitute (.concrete label) (.temp to1 to2))
            let r ← replaceAllLessThan fuel newAst (sorting.sort Constraint.lte substituted)
            .ok ⟨r.ast,
              minimizeConstraints
                (⟨.concrete label, .concrete label, .thisSeemsWrong⟩ :: r.constraints),
              r.substitutions ++ [(label, to1, to2)]⟩
        | low => do
            let r ← replaceAllLessThan fuel ast rest
            if checkFlowViolation label low then
              .ok ⟨r.ast, minimizeConstraints (c :: r.constraints), r.substitutions⟩
            else .error .flowViolation
      else do
        -- this constraint waits for the turn of its own source
        let r ← replaceAllLessThan fuel ast rest
        .ok ⟨r.ast, minimizeConstraints (c :: r.constraints), r.substitutions⟩

/-- `infer_labels_helper1`. -/
def inferLabelsHelper : List L → Statement (Label L) L → List (Constraint L) →
    Except InferError (Statement (Label L) L)
  | [], ast, _ => .ok ast
  | label :: labels, ast, constraints => do
      let sorted := sorting.sort Constraint.lte constraints
      let r ← replaceAllLessThan sorting label sorted.length ast sorted
      inferLabelsHelper labels r.ast r.constraints

/-- `infer_labels`. -/
def inferLabels [BoundedOrder L] (ast : Statement (Label L) L) :
    Except InferError (Statement (Label L) L) := do
  let collapsed ← collapseConstraints (collectConstraints (.concrete ⊤) ast)
  inferLabelsHelper sorting (collectProperLabels sorting ast) ast (minimizeConstraints collapsed)

/-- `infer_labels` with the collected constraints given. -/
def inferLabelsFrom (ast : Statement (Label L) L) (constraints : List (Constraint L)) :
    Except InferError (Statement (Label L) L) := do
  let collapsed ← collapseConstraints constraints
  inferLabelsHelper sorting (collectProperLabels sorting ast) ast (minimizeConstraints collapsed)

theorem inferLabels_eq [BoundedOrder L] (ast : Statement (Label L) L) :
    inferLabels sorting ast =
      inferLabelsFrom sorting ast (collectConstraints (.concrete ⊤) ast) := rfl

end Solver

section Substitutions

variable {L : Type*} [LinearOrder L]

/-- The labels after all substitutions, the last of the list first. -/
def applySubstitutions (substitutions : List (L × Int × Int)) (l : Label L) : Label L :=
  substitutions.foldr (fun s l => Label.labelReplace s.2.1 s.2.2 (.concrete s.1) l) l

@[simp] theorem applySubstitutions_nil (l : Label L) : applySubstitutions [] l = l := rfl

theorem applySubstitutions_append (later earlier : List (L × Int × Int)) (l : Label L) :
    applySubstitutions (later ++ earlier) l =
      applySubstitutions later (applySubstitutions earlier l) := by
  simp [applySubstitutions]

@[simp] theorem applySubstitutions_concrete (substitutions : List (L × Int × Int)) (l : L) :
    applySubstitutions substitutions (.concrete l) = .concrete l := by
  induction substitutions with
  | nil => rfl
  | cons s rest ih =>
      have step : applySubstitutions (s :: rest) (.concrete l) =
          Label.labelReplace s.2.1 s.2.2 (.concrete s.1)
            (applySubstitutions rest (.concrete l)) := rfl
      rw [step, ih]
      rfl

theorem applySubstitutions_singleton (c : L) (s d : Int) (l : Label L) :
    applySubstitutions [(c, s, d)] l = Label.labelReplace s d (.concrete c) l := rfl

/-- A temporary label stays or becomes one of the concrete labels put for it. -/
theorem applySubstitutions_temp (substitutions : List (L × Int × Int)) (s d : Int) :
    applySubstitutions substitutions (.temp s d) = .temp s d ∨
      ∃ c, (c, s, d) ∈ substitutions ∧
        applySubstitutions substitutions (.temp s d) = .concrete c := by
  induction substitutions with
  | nil => exact Or.inl rfl
  | cons new rest ih =>
      have step : applySubstitutions (new :: rest) (.temp s d) =
          Label.labelReplace new.2.1 new.2.2 (.concrete new.1)
            (applySubstitutions rest (.temp s d)) := rfl
      rw [step]
      obtain h | ⟨c, hc, h⟩ := ih
      · rw [h]
        by_cases here : s = new.2.1 ∧ d = new.2.2
        · right
          refine ⟨new.1, ?_, by simp [Label.labelReplace, here]⟩
          obtain ⟨c, s', d'⟩ := new
          obtain ⟨rfl, rfl⟩ := here
          simp
        · left
          simp [Label.labelReplace, here]
      · right
        exact ⟨c, List.mem_cons_of_mem _ hc, by rw [h]; rfl⟩

/-- Neither of the two kinds of label that collapsed constraints have is a minimum. -/
def Atomic (c : Constraint L) : Prop := c.high.isMinOf = false ∧ c.low.isMinOf = false

/-- On labels that are no minimum, a constraint is substituted as the tree is. -/
theorem substitute_eq {c : Constraint L} (h : Atomic c) (label : L) (s d : Int) :
    c.substitute (.concrete label) (.temp s d) =
      ⟨Label.labelReplace s d (.concrete label) c.high,
        Label.labelReplace s d (.concrete label) c.low, c.why⟩ := by
  have atom : ∀ l : Label L, l.isMinOf = false →
      (if .temp s d = l then .concrete label else l) =
        Label.labelReplace s d (.concrete label) l := by
    intro l hl
    cases l with
    | concrete x => simp [Label.labelReplace]
    | temp s' d' => simp [Label.labelReplace, @eq_comm _ s, @eq_comm _ d]
    | minOf a b => simp [Label.isMinOf] at hl
  simp [Constraint.substitute, atom _ h.1, atom _ h.2]

theorem substitute_atomic {c : Constraint L} (h : Atomic c) (label : L) (s d : Int) :
    Atomic (c.substitute (.concrete label) (.temp s d)) := by
  unfold Atomic Constraint.substitute
  constructor
  · dsimp only
    split
    · rfl
    · exact h.1
  · dsimp only
    split
    · rfl
    · exact h.2

theorem mapLabel_applySubstitutions_append (later earlier : List (L × Int × Int))
    (ast : Statement (Label L) L) :
    ast.mapLabel (applySubstitutions (later ++ earlier)) =
      (ast.mapLabel (applySubstitutions earlier)).mapLabel (applySubstitutions later) := by
  rw [Statement.mapLabel_mapLabel]
  congr 1
  funext l
  exact applySubstitutions_append later earlier l

end Substitutions

section Turn

variable {L : Type*} [LinearOrder L] (sorting : Library.ComparisonSort) {label : L}

/-- Constraints with a concrete source come first. -/
def ConcreteFirst (constraints : List (Constraint L)) : Prop :=
  constraints.Pairwise fun a b => a.high.isTemp = true → b.high.isTemp = true

theorem sort_concreteFirst (constraints : List (Constraint L)) :
    ConcreteFirst (sorting.sort Constraint.lte constraints) := by
  have cut := sorting.separates Constraint.lte constraints (fun c => c.high.isTemp = false) <| by
    intro a _ b _ ha hb
    simp [Constraint.lte, ha, hb]
  refine cut.imp ?_
  intro a b h ha
  by_contra hb
  simp [h (by simpa using hb)] at ha

/-- What a turn of `label` does to the constraints. -/
structure Turn (label : L) (ast : Statement (Label L) L) (constraints : List (Constraint L))
    (r : Replaced L) : Prop where
  ast_eq : r.ast = ast.mapLabel (applySubstitutions r.substitutions)
  labels : ∀ s ∈ r.substitutions, s.1 = label
  /-- Each constraint is met by the label, trivial, or kept, perhaps with a target
  that has been replaced since it was set aside. -/
  kept : ∀ c ∈ constraints,
    (applySubstitutions r.substitutions c.high = .concrete label ∧
      ∃ y, applySubstitutions r.substitutions c.low = .concrete y ∧ y ≤ label) ∨
    applySubstitutions r.substitutions c.high = applySubstitutions r.substitutions c.low ∨
    ⟨applySubstitutions r.substitutions c.high, applySubstitutions r.substitutions c.low, c.why⟩
      ∈ r.constraints ∨
    (∃ x, c.high = .concrete x) ∧ c.low.isTemp = true ∧
      applySubstitutions r.substitutions c.low = .concrete label
  /-- Each constraint that is left waits for another label or is met by this one. -/
  left : ∀ c ∈ r.constraints, Atomic c ∧
    (c.high = .concrete label → ∃ y, c.low = .concrete y ∧ y ≤ label)

theorem checkFlowViolation_iff {l : Label L} :
    checkFlowViolation label l = true ↔ ∃ y, l = .concrete y ∧ y ≤ label := by
  cases l with
  | concrete y => exact decide_eq_true_iff.trans (by simp [FlowsTo])
  | temp s d => simp [checkFlowViolation]
  | minOf a b => simp [checkFlowViolation]

variable (label) in
/-- With temporary sources only, the constraints are all set aside. -/
theorem replaceAllLessThan_temps {n : Nat} (ast : Statement (Label L) L)
    {constraints : List (Constraint L)} (fuel : constraints.length ≤ n)
    (temps : ∀ c ∈ constraints, c.high.isTemp = true) :
    ∃ kept, replaceAllLessThan sorting label n ast constraints = .ok ⟨ast, kept, []⟩ ∧
      ∀ c, c ∈ kept ↔ c ∈ constraints ∧ c.high ≠ c.low := by
  induction constraints generalizing n with
  | nil => cases n <;> exact ⟨[], rfl, by simp⟩
  | cons c rest ih =>
      obtain _ | n := n
      · simp at fuel
      · obtain ⟨kept, hrun, hkept⟩ := ih (Nat.le_of_succ_le_succ fuel)
          fun d hd => temps d (List.mem_cons_of_mem _ hd)
        have source : c.high ≠ .concrete label := by
          intro h
          have := temps c (List.mem_cons_self ..)
          simp [h, Label.isTemp] at this
        refine ⟨minimizeConstraints (c :: kept), ?_, ?_⟩
        · simp [replaceAllLessThan, source, hrun]
          rfl
        · intro d
          simp only [mem_minimizeConstraints, List.mem_cons, hkept]
          tauto

theorem minimizeConstraints_kept {constraints : List (Constraint L)} {c : Constraint L}
    (h : c ∈ constraints) : c.high = c.low ∨ c ∈ minimizeConstraints constraints := by
  by_cases reflexive : c.high = c.low
  · exact Or.inl reflexive
  · exact Or.inr (mem_minimizeConstraints.mpr ⟨h, reflexive⟩)

/-- A constraint in hand stays in hand behind another one, unless it is reflexive. -/
theorem kept_behind (first : Constraint L) {high low : Label L} {why : Why}
    {constraints : List (Constraint L)} {met stale : Prop}
    (h : met ∨ high = low ∨ ⟨high, low, why⟩ ∈ constraints ∨ stale) :
    met ∨ high = low ∨ ⟨high, low, why⟩ ∈ minimizeConstraints (first :: constraints) ∨ stale := by
  apply h.imp_right
  rintro (trivially | stays | stale)
  · exact Or.inl trivially
  · obtain reflexive | stays := minimizeConstraints_kept (List.mem_cons_of_mem first stays)
    · exact Or.inl reflexive
    · exact Or.inr (Or.inl stays)
  · exact Or.inr (Or.inr stale)

/-- The turn of `label` when its first constraint has a temporary target. -/
theorem Turn.substitute {ast : Statement (Label L) L} {s d : Int} {why : Why}
    {rest : List (Constraint L)} {r : Replaced L} (atomic : ∀ c ∈ rest, Atomic c)
    (h : Turn label (ast.mapLabel (Label.labelReplace s d (.concrete label)))
      (sorting.sort Constraint.lte
        (rest.map (Constraint.substitute (.concrete label) (.temp s d)))) r) :
    Turn label ast (⟨.concrete label, .temp s d, why⟩ :: rest)
      ⟨r.ast,
        minimizeConstraints (⟨.concrete label, .concrete label, .thisSeemsWrong⟩ :: r.constraints),
        r.substitutions ++ [(label, s, d)]⟩ := by
  have compose : ∀ l, applySubstitutions (r.substitutions ++ [(label, s, d)]) l =
      applySubstitutions r.substitutions (Label.labelReplace s d (.concrete label) l) := by
    intro l
    rw [applySubstitutions_append, applySubstitutions_singleton]
  refine ⟨?_, ?_, ?_, ?_⟩
  · rw [h.ast_eq, Statement.mapLabel_mapLabel]
    congr 1
    funext l
    exact (compose l).symm
  · intro x hx
    obtain hx | hx := List.mem_append.mp hx
    · exact h.labels x hx
    · simp_all
  · intro c hc
    simp only [compose]
    obtain rfl | hc := List.mem_cons.mp hc
    · left
      exact ⟨by simp [Label.labelReplace], label, by simp [Label.labelReplace], le_rfl⟩
    · have moved := h.kept (c.substitute (.concrete label) (.temp s d))
        (sorting.mem_sort.mpr (List.mem_map_of_mem hc))
      rw [substitute_eq (atomic c hc)] at moved
      obtain met | trivially | stays | ⟨⟨x, hx⟩, low, replaced⟩ :=
        kept_behind ⟨.concrete label, .concrete label, .thisSeemsWrong⟩ moved
      · exact Or.inl met
      · exact Or.inr (Or.inl trivially)
      · exact Or.inr (Or.inr (Or.inl stays))
      · -- a source that was the replaced label is now `label` itself
        cases source : c.high with
        | concrete y =>
            refine Or.inr (Or.inr (Or.inr ⟨⟨y, rfl⟩, ?_, replaced⟩))
            cases target : c.low with
            | concrete z => simp [target, Label.labelReplace, Label.isTemp] at low
            | temp s' d' => rfl
            | minOf a b => simpa [target, Label.isMinOf] using (atomic c hc).2
        | temp s' d' =>
            left
            have here : s' = s ∧ d' = d := by
              by_contra elsewhere
              simp [source, Label.labelReplace, elsewhere] at hx
            refine ⟨?_, label, replaced, le_rfl⟩
            simp [Label.labelReplace, here]
        | minOf a b => simpa [source, Label.isMinOf] using (atomic c hc).1
  · intro c hc
    obtain ⟨hc, reflexive⟩ := mem_minimizeConstraints.mp hc
    obtain rfl | hc := List.mem_cons.mp hc
    · exact absurd rfl reflexive
    · exact h.left c hc

/-- The turn of `label` when its first constraint has a concrete target. -/
theorem Turn.check {ast : Statement (Label L) L} {y : L} {why : Why}
    {rest : List (Constraint L)} {r : Replaced L} (flows : y ≤ label)
    (h : Turn label ast rest r) :
    Turn label ast (⟨.concrete label, .concrete y, why⟩ :: rest)
      ⟨r.ast, minimizeConstraints (⟨.concrete label, .concrete y, why⟩ :: r.constraints),
        r.substitutions⟩ := by
  refine ⟨h.ast_eq, h.labels, ?_, ?_⟩
  · intro c hc
    obtain rfl | hc := List.mem_cons.mp hc
    · left
      exact ⟨by simp, y, by simp, flows⟩
    · exact kept_behind _ (h.kept c hc)
  · intro c hc
    obtain ⟨hc, -⟩ := mem_minimizeConstraints.mp hc
    obtain rfl | hc := List.mem_cons.mp hc
    · exact ⟨⟨rfl, rfl⟩, fun _ => ⟨y, rfl, flows⟩⟩
    · exact h.left c hc

/-- The turn of `label` when its first constraint has another concrete source. -/
theorem Turn.setAside {ast : Statement (Label L) L} {first : Constraint L}
    {rest : List (Constraint L)} {r : Replaced L} (atomic : Atomic first)
    {x : L} (source : first.high = .concrete x) (other : first.high ≠ .concrete label)
    (h : Turn label ast rest r) :
    Turn label ast (first :: rest)
      ⟨r.ast, minimizeConstraints (first :: r.constraints), r.substitutions⟩ := by
  refine ⟨h.ast_eq, h.labels, ?_, ?_⟩
  · intro c hc
    obtain rfl | hc := List.mem_cons.mp hc
    · have unreplaced : applySubstitutions r.substitutions c.low = c.low →
          applySubstitutions r.substitutions c.high = applySubstitutions r.substitutions c.low ∨
          ⟨applySubstitutions r.substitutions c.high, applySubstitutions r.substitutions c.low,
            c.why⟩ ∈ minimizeConstraints (c :: r.constraints) := by
        intro same
        rw [same, source, applySubstitutions_concrete]
        obtain reflexive | stays := minimizeConstraints_kept
          (List.mem_cons_self (a := c) (l := r.constraints))
        · exact Or.inl (source ▸ reflexive)
        · exact Or.inr (source ▸ stays)
      right
      cases target : c.low with
      | concrete y =>
          have := unreplaced (by simp [target])
          rw [target] at this
          tauto
      | temp s d =>
          obtain same | ⟨l, hl, replaced⟩ := applySubstitutions_temp r.substitutions s d
          · have := unreplaced (by rw [target]; exact same)
            rw [target] at this
            tauto
          · have hlabel : l = label := h.labels _ hl
            subst hlabel
            exact Or.inr (Or.inr ⟨⟨x, source⟩, rfl, replaced⟩)
      | minOf a b => simpa [target, Label.isMinOf] using atomic.2
    · exact kept_behind first (h.kept c hc)
  · intro c hc
    obtain ⟨hc, -⟩ := mem_minimizeConstraints.mp hc
    obtain rfl | hc := List.mem_cons.mp hc
    · exact ⟨atomic, fun same => absurd same other⟩
    · exact h.left c hc

/-- With temporary sources only, a turn keeps what is not reflexive. -/
theorem Turn.temps {ast : Statement (Label L) L} {constraints kept : List (Constraint L)}
    (atomic : ∀ c ∈ constraints, Atomic c) (temps : ∀ c ∈ constraints, c.high.isTemp = true)
    (hkept : ∀ c, c ∈ kept ↔ c ∈ constraints ∧ c.high ≠ c.low) :
    Turn label ast constraints ⟨ast, kept, []⟩ := by
  refine ⟨(Statement.mapLabel_id ast).symm, by simp, ?_, ?_⟩
  · intro c hc
    by_cases reflexive : c.high = c.low
    · exact Or.inr (Or.inl reflexive)
    · exact Or.inr (Or.inr (Or.inl ((hkept c).mpr ⟨hc, reflexive⟩)))
  · intro c hc
    obtain ⟨hc, -⟩ := (hkept c).mp hc
    refine ⟨atomic c hc, fun source => ?_⟩
    have := temps c hc
    simp [source, Label.isTemp] at this

theorem replaceAllLessThan_turn {n : Nat} {ast : Statement (Label L) L}
    {constraints : List (Constraint L)} {r : Replaced L} (fuel : constraints.length ≤ n)
    (first : ConcreteFirst constraints) (atomic : ∀ c ∈ constraints, Atomic c)
    (h : replaceAllLessThan sorting label n ast constraints = .ok r) :
    Turn label ast constraints r := by
  induction n generalizing ast constraints r with
  | zero =>
      obtain rfl : constraints = [] := by simpa using fuel
      obtain rfl : _ = r := by simpa [replaceAllLessThan] using h
      exact Turn.temps (by simp) (by simp) (by simp)
  | succ n ih =>
      cases constraints with
      | nil =>
          obtain rfl : _ = r := by simpa [replaceAllLessThan] using h
          exact Turn.temps (by simp) (by simp) (by simp)
      | cons c rest =>
          obtain ⟨before, later⟩ := List.pairwise_cons.mp first
          have atomicRest : ∀ c ∈ rest, Atomic c := fun c hc => atomic c (List.mem_cons_of_mem _ hc)
          have fuelRest : rest.length ≤ n := Nat.le_of_succ_le_succ fuel
          obtain ⟨high, low, why⟩ := c
          by_cases source : high = .concrete label
          · subst source
            cases low with
            | temp s d =>
                simp only [replaceAllLessThan, if_true] at h
                obtain ⟨r', hr', h⟩ := except_bind_ok h
                obtain rfl : _ = r := by simpa using h
                refine Turn.substitute sorting atomicRest (ih ?_ (sort_concreteFirst _ _) ?_ hr')
                · rw [sorting.length_sort, List.length_map]
                  exact fuelRest
                · intro c hc
                  obtain ⟨d, hd, rfl⟩ := List.mem_map.mp (sorting.mem_sort.mp hc)
                  exact substitute_atomic (atomicRest d hd) _ _ _
            | concrete y =>
                simp only [replaceAllLessThan, if_true] at h
                obtain ⟨r', hr', h⟩ := except_bind_ok h
                split at h
                · rename_i hcheck
                  obtain rfl : _ = r := by simpa using h
                  obtain ⟨z, hz, flows⟩ := checkFlowViolation_iff.mp hcheck
                  obtain rfl : y = z := by simpa using hz
                  exact Turn.check flows (ih fuelRest later atomicRest hr')
                · simp at h
            | minOf a b => simpa [Label.isMinOf] using (atomic _ (List.mem_cons_self ..)).2
          · cases high with
            | concrete x =>
                simp only [replaceAllLessThan, if_neg source] at h
                obtain ⟨r', hr', h⟩ := except_bind_ok h
                obtain rfl : _ = r := by simpa using h
                exact Turn.setAside (atomic _ (List.mem_cons_self ..)) rfl source
                  (ih fuelRest later atomicRest hr')
            | temp s d =>
                -- after the first temporary source there are no others
                have temps : ∀ c ∈ (⟨.temp s d, low, why⟩ : Constraint L) :: rest,
                    c.high.isTemp = true := by
                  intro c hc
                  obtain rfl | hc := List.mem_cons.mp hc
                  · rfl
                  · exact before c hc rfl
                obtain ⟨kept, hrun, hkept⟩ :=
                  replaceAllLessThan_temps sorting label ast fuel temps
                rw [hrun] at h
                obtain rfl : _ = r := by simpa using h
                exact Turn.temps atomic temps hkept
            | minOf a b => simpa [Label.isMinOf] using (atomic _ (List.mem_cons_self ..)).1

end Turn

end MixT.Inference
