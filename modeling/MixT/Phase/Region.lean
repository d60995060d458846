import MixT.Phase.Keeps

/-! # What a phase works on

A phase works on the variables that it names and on the maps of some types of handles. It
runs alike over memories that are alike there, and leaves everything else as it was. -/

namespace MixT.Phase

open Library Eff

section Names

variable {L : Type*}

mutual

/-- The variables that an expression reads. -/
def Expr.names : Expr → List VarName
  | .varReference x => [x]
  | .fieldReference struct _ => struct.names
  | .constant _ => []
  | .binOp _ l r => l.names ++ r.names
  | .generateTombstone => []
  | .isValid h => h.names
  | .operation _ h args => h.names ++ Expr.namesAll args

def Expr.namesAll : List Expr → List VarName
  | [] => []
  | e :: es => e.names ++ Expr.namesAll es

end

/-- The variables that a phase assigns. -/
def Stmt.assigned : Stmt L → List VarName
  | .letIn _ _ body => assigned body
  | .letRemote _ _ body => assigned body
  | .assignVar x _ => [x]
  | .assignField x _ _ => [x]
  | .ifThen _ t e => assigned t ++ assigned e
  | .whileLoop _ _ body => assigned body
  | .forEach _ body => assigned body
  | .cons first rest => assigned first ++ assigned rest
  | _ => []

/-- The variables whose values a phase works on. Over others it steps. -/
def Stmt.reads : Stmt L → List VarName
  | .letIn x e body => x :: (e.names ++ reads body)
  | .letRemote x h body => x :: (h.names ++ reads body)
  | .operation _ h args => h.names ++ Expr.namesAll args
  | .assignVar x e => x :: e.names
  | .assignField x _ e => x :: e.names
  | .ret e => e.names
  | .accompanyWrite _ => [Builtin.tombstoneName]
  | .writeTombstone x => [x]
  | .refreshRemoteOccurance _ x => [x]
  | .ifThen c t e => c.names ++ (reads t ++ reads e)
  | .whileLoop name c body => name :: (c.names ++ reads body)
  | .forEach name body => name :: reads body
  | .cons first rest => reads first ++ reads rest
  | _ => []

theorem Stmt.assigned_reads (s : Stmt L) {x : VarName} (h : x ∈ s.assigned) : x ∈ s.reads := by
  induction s with
  | _ => grind [Stmt.assigned, Stmt.reads]

/-- Variables and types of handles that a phase works on. It reads, binds and assigns some of the
variables. -/
structure Region (L : Type*) where
  names : VarName → Prop
  reads : VarName → Prop
  binds : VarName → Prop
  assigns : VarName → Prop
  types : Ty L → Prop
  reads_names : ∀ x, reads x → names x
  binds_reads : ∀ x, binds x → reads x
  assigns_reads : ∀ x, assigns x → reads x

variable (r : Region L)

/-- The expression reads variables of the region, and constants of the language. -/
def Region.Reads (e : Expr) : Prop := ∀ x ∈ e.names, Builtin.isBuiltinVar x = true ∨ r.reads x

def Region.ReadsAll (es : List Expr) : Prop :=
  ∀ x ∈ Expr.namesAll es, Builtin.isBuiltinVar x = true ∨ r.reads x

/-- The phase works on the region. -/
def Stmt.Within : Stmt L → Prop
  | .letIn x e body => r.Reads e ∧ r.binds x ∧ Within body
  | .letRemote x h body => r.Reads h ∧ r.binds x ∧ Within body
  | .operation name h args => r.Reads (.operation name h args)
  | .assignVar x e => r.Reads e ∧ r.assigns x
  | .assignField x _ e => r.Reads e ∧ r.assigns x
  | .ret e => r.Reads e
  | .accompanyWrite x => r.names x ∧ r.reads Builtin.tombstoneName
  | .writeTombstone x => r.reads x
  | .incrementOccurance x => r.names x
  | .incrementRemoteOccurance x => r.names x
  | .refreshRemoteOccurance handle x => r.Reads (.varReference x) ∧ r.types handle
  | .ifThen c t e => r.Reads c ∧ Within t ∧ Within e
  | .whileLoop name c body => r.Reads c ∧ r.binds name ∧ Within body
  | .forEach name body => r.reads name ∧ Within body
  | .nil => True
  | .cons first rest => Within first ∧ Within rest

end Names

section Alike

variable {L V : Type} [Inhabited V]

/-- The holders give the same values. Memory that was never constructed gives some value. -/
inductive Holder.Alike : Holder L V → Holder L V → Prop
  | value {t t' : Option V} : t.getD default = t'.getD default → Alike (.value t) (.value t')
  | type (h : TypeHolder V) : Alike (.type h) (.type h)
  | remote (handleType : Ty L) (handle : List V) (currPos : Int) :
      Alike (.remote handleType handle currPos) (.remote handleType handle currPos)

namespace Holder

theorem Alike.refl (h : Holder L V) : h.Alike h := by
  cases h with
  | value t => exact .value rfl
  | type h => exact .type h
  | remote handleType handle currPos => exact .remote handleType handle currPos

theorem Alike.trans {g g' g'' : Holder L V} (h : g.Alike g') (h' : g'.Alike g'') : g.Alike g'' := by
  cases h with
  | value same =>
      cases h' with
      | value same' => exact .value (same.trans same')
  | type _ => exact h'
  | remote _ _ _ => exact h'

theorem Alike.symm {g g' : Holder L V} (h : g.Alike g') : g'.Alike g := by
  cases h with
  | value same => exact .value same.symm
  | type h => exact .type h
  | remote handleType handle currPos => exact .remote handleType handle currPos

/-- `begin_phase` of the three holders. -/
def beginPhase : Holder L V → Holder L V
  | .value t => .value t
  | .type h => .type h.beginPhase
  | .remote handleType handle _ => .remote handleType handle (-1)

/-- The type of a remote variable's handles. -/
def handleType : Holder L V → Option (Ty L)
  | .remote t _ _ => some t
  | _ => none

/-- The holder as it is constructed. -/
def fresh : Holder L V → Holder L V
  | .value _ => .value none
  | .type _ => .type .empty
  | .remote handleType _ _ => .remote handleType [] (-1)

omit [Inhabited V] in
@[simp] theorem beginPhase_beginPhase (h : Holder L V) : h.beginPhase.beginPhase = h.beginPhase := by
  cases h <;> rfl

omit [Inhabited V] in
@[simp] theorem handleType_fresh (h : Holder L V) : h.fresh.handleType = h.handleType := by
  cases h <;> rfl

omit [Inhabited V] in
@[simp] theorem fresh_beginPhase (h : Holder L V) : h.beginPhase.fresh = h.fresh := by
  cases h <;> rfl

omit [Inhabited V] in
@[simp] theorem beginPhase_fresh (h : Holder L V) : h.fresh.beginPhase = h.fresh := by
  cases h <;> rfl

omit [Inhabited V] in
@[simp] theorem fresh_fresh (h : Holder L V) : h.fresh.fresh = h.fresh := by
  cases h <;> rfl

theorem Alike.beginPhase {g g' : Holder L V} (h : g.Alike g') :
    g.beginPhase.Alike g'.beginPhase := by
  cases h with
  | value same => exact .value same
  | type h => exact .type _
  | remote handleType handle currPos => exact .remote _ _ _

end Holder

omit [Inhabited V] in
theorem beginPhase_holders (m : Mem L V) (x : VarName) :
    m.beginPhase.holders x = (m.holders x).beginPhase := by
  simp only [Mem.beginPhase]
  cases m.holders x <;> rfl

/-- The maps of the remote variables that the phase reads are in the region. -/
def Mapped (r : Region L) (m : Mem L V) : Prop :=
  ∀ x t, r.reads x → (m.holders x).handleType = some t → r.types t

/-- Memories that are alike in the region, which has the maps of what the phase reads. -/
structure Matches (r : Region L) (m m' : Mem L V) : Prop where
  holders : ∀ x, r.names x → (m.holders x).Alike (m'.holders x)
  super : ∀ t, r.types t → m.super t = m'.super t
  mapped : Mapped r m

namespace Matches

variable {r : Region L} {m m' : Mem L V}

theorem setHolder (h : Matches r m m') (x : VarName) {g g' : Holder L V} (alike : g.Alike g')
    (mapped : r.reads x → ∀ t, g.handleType = some t → r.types t) :
    Matches r (m.setHolder x g) (m'.setHolder x g') := by
  refine ⟨fun y hy => ?_, h.super, fun y t hy same => ?_⟩
  · by_cases here : y = x
    · subst here
      simpa [Mem.setHolder] using alike
    · simpa [Mem.setHolder, here] using h.holders y hy
  · by_cases here : y = x
    · subst here
      exact mapped hy t (by simpa [Mem.setHolder] using same)
    · exact h.mapped y t hy (by simpa [Mem.setHolder, here] using same)

variable {host : Host V F} {x : VarName}

theorem get (h : Matches r m m') (hx : r.reads x) : m.get host x = m'.get host x := by
  have alike := h.holders x (r.reads_names x hx)
  have mapped := h.mapped x
  unfold Mem.get
  revert alike mapped
  cases m.holders x <;> cases m'.holders x <;> intro alike mapped <;> cases alike
  · assumption
  · rfl
  · rename_i t handle currPos
    simp only [h.super t (mapped t hx rfl)]

theorem getRemote (h : Matches r m m') (hx : r.names x) : m.getRemote x = m'.getRemote x := by
  have alike := h.holders x hx
  unfold Mem.getRemote
  revert alike
  cases m.holders x <;> cases m'.holders x <;> intro alike <;> cases alike <;> rfl

theorem getVar {backend : Backend V F Sh} (h : Matches r m m')
    (hx : Builtin.isBuiltinVar x = true ∨ r.reads x) :
    getVar host backend m x = getVar host backend m' x := by
  unfold Phase.getVar
  obtain builtin | hx := hx
  · simp only [Builtin.isBuiltinVar, Bool.or_eq_true, decide_eq_true_eq] at builtin
    obtain (rfl | rfl) | rfl := builtin <;> simp
  · rw [h.get hx]

mutual

/-- An expression has the same value, and does the same, over memories that match. -/
theorem eval {backend : Backend V F Sh} {rightFirst : List Expr → Bool} (h : Matches r m m') :
    (e : Expr) → r.Reads e →
      eval host backend rightFirst m e = eval host backend rightFirst m' e
  | .varReference x, within => by
      rw [Phase.eval, Phase.eval, h.getVar (within x (List.mem_singleton_self x))]
  | .fieldReference struct f, within => by
      rw [Phase.eval, Phase.eval, h.eval struct within]
  | .constant i, _ => by rw [Phase.eval, Phase.eval]
  | .binOp op el er, within => by
      have left : Phase.eval host backend rightFirst m el = Phase.eval host backend rightFirst m' el :=
        h.eval el fun x hx => within x (List.mem_append_left _ hx)
      have right : Phase.eval host backend rightFirst m er = Phase.eval host backend rightFirst m' er :=
        h.eval er fun x hx => within x (List.mem_append_right _ hx)
      cases op <;> simp only [Phase.eval, left, right]
  | .generateTombstone, _ => by rw [Phase.eval, Phase.eval]
  | .isValid hndl, within => by rw [Phase.eval, Phase.eval, h.eval hndl within]
  | .operation name hndl args, within => by
      rw [Phase.eval, Phase.eval, h.eval hndl fun x hx => within x (List.mem_append_left _ hx),
        h.evalArgs args fun x hx => within x (List.mem_append_right _ hx),
        h.evalArgsRight args fun x hx => within x (List.mem_append_right _ hx)]

theorem evalArgs {backend : Backend V F Sh} {rightFirst : List Expr → Bool}
    (h : Matches r m m') :
    (es : List Expr) → r.ReadsAll es →
      evalArgs host backend rightFirst m es = evalArgs host backend rightFirst m' es
  | [], _ => by rw [Phase.evalArgs, Phase.evalArgs]
  | e :: es, within => by
      rw [Phase.evalArgs, Phase.evalArgs, h.eval e fun x hx => within x (List.mem_append_left _ hx),
        h.evalArgs es fun x hx => within x (List.mem_append_right _ hx)]

theorem evalArgsRight {backend : Backend V F Sh} {rightFirst : List Expr → Bool}
    (h : Matches r m m') :
    (es : List Expr) → r.ReadsAll es →
      evalArgsRight host backend rightFirst m es = evalArgsRight host backend rightFirst m' es
  | [], _ => by rw [Phase.evalArgsRight, Phase.evalArgsRight]
  | e :: es, within => by
      rw [Phase.evalArgsRight, Phase.evalArgsRight,
        h.eval e fun x hx => within x (List.mem_append_left _ hx),
        h.evalArgsRight es fun x hx => within x (List.mem_append_right _ hx)]

end

variable [DecidableEq L] {backend : Backend V F Sh}

omit [Inhabited V] in
theorem setSuper [Inhabited V] (h : Matches r m m') (handleType : Ty L) (name : Nat)
    {g g' : TypeHolder V} (same : r.types handleType → g = g') :
    Matches r (m.setSuper handleType name g) (m'.setSuper handleType name g') := by
  refine ⟨h.holders, fun t ht => ?_, h.mapped⟩
  funext n
  simp only [Mem.setSuper, h.super t ht]
  by_cases here : t = handleType ∧ n = name
  · rw [if_pos here, if_pos here, same (here.1 ▸ ht)]
  · rw [if_neg here, if_neg here]

theorem bind (h : Matches r m m') (hx : r.reads x) (v : V) :
    Sim Eq (Matches r) (m.bind host backend x v) (m'.bind host backend x v) := by
  have alike := h.holders x (r.reads_names x hx)
  have mapped := h.mapped x
  unfold Mem.bind
  revert alike mapped
  cases m.holders x <;> cases m'.holders x <;> intro alike mapped <;> cases alike
  · exact sim_pure (h.setHolder x (.value rfl) (by simp [Holder.handleType]))
  · exact sim_pure (h.setHolder x (.type _) (by simp [Holder.handleType]))
  · rename_i t handle currPos
    apply (sim_refl _).bind
    rintro o _ rfl
    apply (sim_refl _).bind
    rintro _ _ -
    have inside : r.types t := mapped t hx rfl
    apply sim_pure
    rw [← h.super t inside]
    refine (h.setHolder x (.remote _ _ _) ?_).setSuper _ _ fun _ => rfl
    rintro _ t' same
    cases same
    exact inside

theorem push (h : Matches r m m') (hx : r.reads x) (v : V) :
    Sim Eq (Matches r) (m.push host backend x v) (m'.push host backend x v) := by
  have alike := h.holders x (r.reads_names x hx)
  have mapped := h.mapped x
  unfold Mem.push
  revert alike mapped
  cases m.holders x <;> cases m'.holders x <;> intro alike mapped <;> cases alike
  · exact sim_pure (h.setHolder x (.value rfl) (by simp [Holder.handleType]))
  · exact sim_pure (h.setHolder x (.type _) (by simp [Holder.handleType]))
  · rename_i t handle currPos
    apply (sim_refl _).bind
    rintro _ _ -
    apply sim_pure
    rw [← h.super t (mapped t hx rfl)]
    exact h.setSuper _ _ fun _ => rfl

theorem refresh (h : Matches r m m') {t : Ty L} (ht : r.types t) (v : V) :
    Sim Eq (Matches r) (m.refresh host backend t v) (m'.refresh host backend t v) := by
  apply (sim_refl _).bind
  rintro o _ rfl
  apply sim_pure
  rw [← h.super t ht]
  exact h.setSuper _ _ fun _ => rfl

theorem increment (h : Matches r m m') (hx : r.names x) :
    Matches r (m.increment host x) (m'.increment host x) := by
  have alike := h.holders x hx
  have mapped := h.mapped x
  unfold Mem.increment
  revert alike mapped
  cases m.holders x <;> cases m'.holders x <;> intro alike mapped <;> cases alike
  · exact h
  · exact h.setHolder x (.type _) (by simp [Holder.handleType])
  · rename_i t handle currPos
    dsimp only
    split
    · exact h.setSuper _ _ fun inside => by rw [h.super t inside]
    · exact h

theorem incrementRemote (h : Matches r m m') (hx : r.names x) :
    Matches r (m.incrementRemote host x) (m'.incrementRemote host x) := by
  have alike := h.holders x hx
  have mapped := h.mapped x
  unfold Mem.incrementRemote
  revert alike mapped
  cases m.holders x <;> cases m'.holders x <;> intro alike mapped <;> cases alike
  · exact h
  · exact h
  · rename_i t handle currPos
    refine (h.setHolder x (.remote _ _ _) ?_).increment hx
    rintro reads t' same
    cases same
    exact mapped t reads rfl

end Matches

end Alike

section Exec

variable {L V F Sh α : Type} {R : Mem L V → Mem L V → Prop}

/-- The memories are related and the shared states are the same. -/
def On (R : Mem L V → Mem L V → Prop) (s s' : Mem L V × Sh) : Prop := R s.1 s'.1 ∧ s.2 = s'.2

theorem sim_act {a a' : Mem L V → Act F Sh α} (h : ∀ m m', R m m' → a m = a' m') :
    Sim (On R) Eq (Exec.ofAct a) (Exec.ofAct a') := by
  rintro ⟨m, sh⟩ ⟨m', _⟩ ⟨related, rfl⟩
  simp only [Exec.ofAct, ExceptT.run_mk, h m m' related]
  rcases (a' m').run sh with ⟨f | v, sh'⟩
  · exact ⟨.error _, related, rfl⟩
  · exact ⟨.ok rfl, related, rfl⟩

theorem sim_changed {a a' : Mem L V → Act F Sh (Mem L V)}
    (h : ∀ m m', R m m' → Sim Eq R (a m) (a' m')) :
    Sim (On R) Eq (Exec.change a) (Exec.change a') := by
  rintro ⟨m, sh⟩ ⟨m', _⟩ ⟨related, rfl⟩
  obtain ⟨results, states⟩ := h m m' related sh sh rfl
  simp only [Exec.change, ExceptT.run_mk]
  rcases hrun : (a m).run sh with ⟨r, sh'⟩
  rcases hrun' : (a' m').run sh with ⟨r', sh''⟩
  rw [hrun, hrun'] at results states
  cases results with
  | ok related' => exact ⟨.ok rfl, related', states⟩
  | error f => exact ⟨.error _, related, states⟩

theorem sim_turning {S : Mem L V × Sh → Mem L V × Sh → Prop}
    {push push' : Nat → Exec L V F Sh Unit} {body body' : Exec L V F Sh Unit}
    {condition condition' : Exec L V F Sh Bool} (hpush : ∀ i, Sim S Eq (push i) (push' i))
    (hbody : Sim S Eq body body') (hcondition : Sim S Eq condition condition') (n i : Nat)
    (go : Bool) :
    Sim S Eq (turns push body condition n i go) (turns push' body' condition' n i go) := by
  induction n generalizing i go with
  | zero =>
      cases go with
      | false => exact sim_pure rfl
      | true => exact sim_throw _
  | succ n ih =>
      cases go with
      | false => exact sim_pure rfl
      | true =>
          apply (hpush (i + 1)).bind
          rintro _ _ -
          apply hbody.bind
          rintro _ _ -
          apply hcondition.bind
          rintro go _ rfl
          exact ih (i + 1) go

theorem sim_repeating {S : Mem L V × Sh → Mem L V × Sh → Prop} {body body' : Exec L V F Sh Unit}
    (h : Sim S Eq body body') (n : Nat) :
    Sim S Eq (repeatTurns body n) (repeatTurns body' n) := by
  induction n with
  | zero => exact sim_pure rfl
  | succ n ih =>
      apply h.bind
      rintro _ _ -
      exact ih

variable [Inhabited V] [DecidableEq L] {r : Region L} {host : Host V F}
  {backend : Backend V F Sh} {rightFirst : List Expr → Bool}

/-- Over memories that match where it works, a phase does the same, and they match after it. -/
theorem exec_matches (n : Nat) {s : Stmt L} (within : s.Within r) :
    Sim (On (Matches r) : Mem L V × Sh → Mem L V × Sh → Prop) Eq
      (exec host backend rightFirst n s) (exec host backend rightFirst n s) := by
  have evaluated : ∀ e : Expr, r.Reads e →
      Sim (On (Matches r) : Mem L V × Sh → Mem L V × Sh → Prop) Eq
        (Exec.ofAct fun m => eval host backend rightFirst m e)
        (Exec.ofAct fun m => eval host backend rightFirst m e) :=
    fun e reads => sim_act fun m m' h => h.eval e reads
  have bound : ∀ x v, r.binds x → Sim (On (Matches r) : Mem L V × Sh → Mem L V × Sh → Prop) Eq
      (Exec.change fun m => m.bind host backend x v)
      (Exec.change fun m => m.bind host backend x v) :=
    fun x v hx => sim_changed fun m m' h => h.bind (r.binds_reads x hx) v
  have pushed : ∀ x v, r.reads x → Sim (On (Matches r) : Mem L V × Sh → Mem L V × Sh → Prop) Eq
      (Exec.change fun m => m.push host backend x v)
      (Exec.change fun m => m.push host backend x v) :=
    fun x v hx => sim_changed fun m m' h => h.push hx v
  induction s with
  | letIn x e body ih =>
      apply (evaluated e within.1).bind
      rintro v _ rfl
      apply (bound x v within.2.1).bind
      rintro _ _ -
      exact ih within.2.2
  | letRemote x h body ih =>
      apply (evaluated h within.1).bind
      rintro v _ rfl
      apply (bound x v within.2.1).bind
      rintro _ _ -
      exact ih within.2.2
  | operation name h args =>
      apply (evaluated _ within).bind
      rintro _ _ -
      exact sim_pure rfl
  | assignVar x e =>
      apply (evaluated e within.1).bind
      rintro v _ rfl
      exact pushed x v (r.assigns_reads x within.2)
  | assignField x f e =>
      have hx := r.assigns_reads x within.2
      apply (sim_act fun m m' h => h.getVar (Or.inr hx)).bind
      rintro strct _ rfl
      apply (evaluated e within.1).bind
      rintro v _ rfl
      exact pushed x _ hx
  | ret e =>
      apply (evaluated e within).bind
      rintro v _ rfl
      exact sim_throw _
  | accompanyWrite x =>
      apply sim_act
      intro m m' h
      rw [h.getRemote within.1, h.get within.2]
  | writeTombstone x =>
      apply sim_act
      intro m m' h
      rw [h.get within]
  | incrementOccurance x => exact sim_changed fun m m' h => sim_pure (h.increment within)
  | incrementRemoteOccurance x =>
      exact sim_changed fun m m' h => sim_pure (h.incrementRemote within)
  | refreshRemoteOccurance t x =>
      apply (sim_act fun m m' h => h.getVar (within.1 x (List.mem_singleton_self x))).bind
      rintro v _ rfl
      exact sim_changed fun m m' h => h.refresh within.2 v
  | ifThen c t e iht ihe =>
      apply (evaluated c within.1).bind
      rintro v _ rfl
      split
      · exact iht within.2.1
      · exact ihe within.2.2
  | whileLoop name c body ih =>
      have condition : Sim (On (Matches r) : Mem L V × Sh → Mem L V × Sh → Prop) Eq
          (do
            let v ← Exec.ofAct fun m => eval host backend rightFirst m c
            pure (host.truth v))
          (do
            let v ← Exec.ofAct fun m => eval host backend rightFirst m c
            pure (host.truth v)) := by
        apply (evaluated c within.1).bind
        rintro v _ rfl
        exact sim_pure rfl
      apply (bound name _ within.2.1).bind
      rintro _ _ -
      apply condition.bind
      rintro go _ rfl
      apply sim_turning
      · exact fun i => pushed name _ (r.binds_reads name within.2.1)
      · exact ih within.2.2
      · exact condition
  | forEach name body ih =>
      apply (sim_act fun m m' h => h.getVar (Or.inr within.1)).bind
      rintro bound _ rfl
      exact sim_repeating (ih within.2) _
  | nil => exact sim_pure rfl
  | cons first rest ihf ihr =>
      apply (ihf within.1).bind
      rintro _ _ -
      exact ihr within.2

end Exec

section Frame

variable {L V : Type}

/-- The variable is neither bound in the region nor, unless it is remote, assigned. -/
def Region.Keeps (r : Region L) (m₀ : Mem L V) (x : VarName) : Prop :=
  ¬ r.binds x ∧ (r.assigns x → (m₀.holders x).handleType.isSome = true)

/-- What a phase on the region makes of a memory: it differs in the variables that the region
binds or assigns, in the maps of the region, which lose no entry, and in cursors. -/
structure Spares (r : Region L) (m₀ m : Mem L V) : Prop where
  values : ∀ x, r.Keeps m₀ x → (m.holders x).beginPhase = (m₀.holders x).beginPhase
  fresh : ∀ x, (m.holders x).fresh = (m₀.holders x).fresh
  super : ∀ t, ¬ r.types t → ∀ name, (m.super t name).beginPhase = (m₀.super t name).beginPhase
  grown : ∀ t name, (m.super t name).t = [] → (m₀.super t name).t = []

namespace Spares

variable {r : Region L} {m₀ m : Mem L V} {x : VarName}

theorem refl (r : Region L) (m : Mem L V) : Spares r m m :=
  ⟨fun _ _ => rfl, fun _ => rfl, fun _ _ _ => rfl, fun _ _ none => none⟩

theorem setHolder (h : Spares r m₀ m) {g : Holder L V} (fresh : g.fresh = (m.holders x).fresh)
    (values : r.Keeps m₀ x → g.beginPhase = (m.holders x).beginPhase) :
    Spares r m₀ (m.setHolder x g) := by
  refine ⟨fun y kept => ?_, fun y => ?_, h.super, h.grown⟩
  · by_cases here : y = x
    · subst here
      simpa [Mem.setHolder] using (values kept).trans (h.values y kept)
    · simpa [Mem.setHolder, here] using h.values y kept
  · by_cases here : y = x
    · subst here
      simpa [Mem.setHolder] using fresh.trans (h.fresh y)
    · simpa [Mem.setHolder, here] using h.fresh y

theorem handleType (h : Spares r m₀ m) (x : VarName) :
    (m.holders x).handleType = (m₀.holders x).handleType := by
  rw [← Holder.handleType_fresh, h.fresh, Holder.handleType_fresh]

theorem mapped (h : Spares r m₀ m) (mapped : Mapped r m₀) : Mapped r m :=
  fun x t hx same => mapped x t hx ((h.handleType x).symm.trans same)

variable [DecidableEq L]

theorem setSuper (h : Spares r m₀ m) {t : Ty L} {name : Nat} {g : TypeHolder V}
    (outside : ¬ r.types t → g.beginPhase = (m.super t name).beginPhase)
    (grown : g.t = [] → (m.super t name).t = []) : Spares r m₀ (m.setSuper t name g) := by
  refine ⟨h.values, h.fresh, fun t' out n => ?_, fun t' n none => ?_⟩
  · by_cases here : t' = t ∧ n = name
    · obtain ⟨rfl, rfl⟩ := here
      simpa [Mem.setSuper] using (outside out).trans (h.super _ out _)
    · simpa [Mem.setSuper, here] using h.super t' out n
  · by_cases here : t' = t ∧ n = name
    · obtain ⟨rfl, rfl⟩ := here
      exact h.grown _ _ (grown (by simpa [Mem.setSuper] using none))
    · exact h.grown _ _ (by simpa [Mem.setSuper, here] using none)

omit [DecidableEq L] in
theorem push_grown (g : TypeHolder V) (v : V) : (g.push v).t = [] → g.t = [] := by
  simp [TypeHolder.push]

variable [Inhabited V] {host : Host V F} {backend : Backend V F Sh} {sh : Sh}

theorem bind (h : Spares r m₀ m) (maps : Mapped r m₀) (hx : r.binds x) (v : V) :
    wlp (m.bind host backend x v) (fun m' _ => Spares r m₀ m') sh := by
  have bound : ¬ r.Keeps m₀ x := fun kept => kept.1 hx
  have mapped := h.mapped maps x
  unfold Mem.bind
  cases hm : m.holders x with
  | value t => exact wlp_pure.mpr (h.setHolder (by rw [hm]; rfl) fun kept => absurd kept bound)
  | type g => exact wlp_pure.mpr (h.setHolder (by rw [hm]; rfl) fun kept => absurd kept bound)
  | remote t handle currPos =>
      simp only [wlp_bind]
      intro o sh₁ _
      rw [wlp_bind]
      intro _ sh₂ _
      rw [wlp_pure]
      have inside : r.types t := mapped t (r.binds_reads x hx) (by rw [hm]; rfl)
      exact (h.setHolder (by rw [hm]; rfl) fun kept => absurd kept bound).setSuper
        (absurd inside) (push_grown _ _)

theorem push (h : Spares r m₀ m) (maps : Mapped r m₀) (hx : r.binds x ∨ r.assigns x) (v : V) :
    wlp (m.push host backend x v) (fun m' _ => Spares r m₀ m') sh := by
  have reads : r.reads x := hx.elim (r.binds_reads x) (r.assigns_reads x)
  have mapped := h.mapped maps x
  -- a variable that is kept and pushed to is remote
  have remote : r.Keeps m₀ x → (m.holders x).handleType.isSome = true := by
    intro kept
    rw [h.handleType]
    exact kept.2 (hx.resolve_left kept.1)
  unfold Mem.push
  cases hm : m.holders x with
  | value t =>
      rw [hm] at remote
      exact wlp_pure.mpr (h.setHolder (by rw [hm]; rfl) fun kept => by cases remote kept)
  | type g =>
      rw [hm] at remote
      exact wlp_pure.mpr (h.setHolder (by rw [hm]; rfl) fun kept => by cases remote kept)
  | remote t handle currPos =>
      simp only [wlp_bind]
      intro _ sh₁ _
      rw [wlp_pure]
      have inside : r.types t := mapped t reads (by rw [hm]; rfl)
      exact h.setSuper (absurd inside) (push_grown _ _)

omit [Inhabited V] in
theorem refresh (h : Spares r m₀ m) {t : Ty L} (ht : r.types t) (v : V) :
    wlp (m.refresh host backend t v) (fun m' _ => Spares r m₀ m') sh := by
  unfold Mem.refresh
  rw [wlp_bind]
  intro o sh₁ _
  rw [wlp_pure]
  exact h.setSuper (absurd ht) (push_grown _ _)

theorem increment (h : Spares r m₀ m) (x : VarName) : Spares r m₀ (m.increment host x) := by
  unfold Mem.increment
  cases hm : m.holders x with
  | value t => exact h
  | type g => exact h.setHolder (by rw [hm]; rfl) fun _ => by rw [hm]; rfl
  | remote t handle currPos =>
      dsimp only
      split
      · exact h.setSuper (fun _ => rfl) id
      · exact h

theorem incrementRemote (h : Spares r m₀ m) (x : VarName) :
    Spares r m₀ (m.incrementRemote host x) := by
  unfold Mem.incrementRemote
  cases hm : m.holders x with
  | remote t handle currPos =>
      have stepped : Spares r m₀ (m.setHolder x (.remote t handle (currPos + 1))) :=
        h.setHolder (by rw [hm]; rfl) fun _ => by rw [hm]; rfl
      exact stepped.increment x
  | _ => exact h

end Spares

section Exec

variable {F Sh α : Type} {I : Mem L V → Prop}

theorem keeps_act (a : Mem L V → Act F Sh α) :
    Keeps (fun st : Mem L V × Sh => I st.1) (fun _ => True) (Exec.ofAct a) := by
  intro st hst
  rcases hrun : (a st.1).run st.2 with ⟨f | v, sh⟩
  · simp only [Exec.ofAct, ExceptT.run_mk, hrun]
    exact ⟨hst, fun _ _ => trivial⟩
  · simp only [Exec.ofAct, ExceptT.run_mk, hrun]
    exact ⟨hst, fun _ _ => trivial⟩

theorem keeps_changed {a : Mem L V → Act F Sh (Mem L V)}
    (h : ∀ m sh, I m → wlp (a m) (fun m' _ => I m') sh) :
    Keeps (fun st : Mem L V × Sh => I st.1) (fun _ => True) (Exec.change a) := by
  intro st hst
  rcases hrun : (a st.1).run st.2 with ⟨f | m, sh⟩
  · simp only [Exec.change, ExceptT.run_mk, hrun]
    exact ⟨hst, fun _ _ => trivial⟩
  · simp only [Exec.change, ExceptT.run_mk, hrun]
    exact ⟨h st.1 st.2 hst m sh hrun, fun _ _ => trivial⟩

variable [Inhabited V] [DecidableEq L] {r : Region L} {m₀ : Mem L V} {host : Host V F}
  {backend : Backend V F Sh} {rightFirst : List Expr → Bool}

/-- A phase leaves alone what is outside its region. -/
theorem exec_spares (maps : Mapped r m₀) (n : Nat) {s : Stmt L} (within : s.Within r) :
    Keeps (fun st : Mem L V × Sh => Spares r m₀ st.1) (fun _ => True)
      (exec host backend rightFirst n s) := by
  have bound : ∀ x v, r.binds x → Keeps (fun st : Mem L V × Sh => Spares r m₀ st.1) (fun _ => True)
      (Exec.change fun m => m.bind host backend x v) :=
    fun x v hx => keeps_changed fun m sh h => h.bind maps hx v
  have pushed : ∀ x v, (r.binds x ∨ r.assigns x) →
      Keeps (fun st : Mem L V × Sh => Spares r m₀ st.1) (fun _ => True)
        (Exec.change fun m => m.push host backend x v) :=
    fun x v hx => keeps_changed fun m sh h => h.push maps hx v
  induction s with
  | letIn x e body ih =>
      exact (keeps_act _).bind fun v => (bound x v within.2.1).bind fun _ => ih within.2.2
  | letRemote x h body ih =>
      exact (keeps_act _).bind fun v => (bound x v within.2.1).bind fun _ => ih within.2.2
  | operation name h args => exact (keeps_act _).bind fun _ => keeps_pure _
  | assignVar x e => exact (keeps_act _).bind fun v => pushed x v (Or.inr within.2)
  | assignField x f e =>
      exact (keeps_act _).bind fun strct => (keeps_act _).bind fun v => pushed x _ (Or.inr within.2)
  | ret e => exact (keeps_act _).bind fun v => keeps_throw trivial
  | accompanyWrite x => exact keeps_act _
  | writeTombstone x => exact keeps_act _
  | incrementOccurance x =>
      exact keeps_changed fun m sh h => wlp_pure.mpr (h.increment x)
  | incrementRemoteOccurance x =>
      exact keeps_changed fun m sh h => wlp_pure.mpr (h.incrementRemote x)
  | refreshRemoteOccurance t x =>
      exact (keeps_act _).bind fun v => keeps_changed fun m sh h => h.refresh within.2 v
  | ifThen c t e iht ihe =>
      refine (keeps_act _).bind fun v => ?_
      split
      · exact iht within.2.1
      · exact ihe within.2.2
  | whileLoop name c body ih =>
      have condition : Keeps (fun st : Mem L V × Sh => Spares r m₀ st.1) (fun _ => True) (do
          let v ← Exec.ofAct fun m : Mem L V => eval host backend rightFirst m c
          pure (host.truth v)) := (keeps_act _).bind fun v => keeps_pure (host.truth v)
      exact (bound name _ within.2.1).bind fun _ => condition.bind fun go =>
        turns_keeps (fun i => pushed name _ (Or.inl within.2.1)) (ih within.2.2) condition trivial
          n 0 go
  | forEach name body ih => exact (keeps_act _).bind fun v => repeatTurns_keeps (ih within.2) _
  | nil => exact keeps_pure _
  | cons first rest ihf ihr => exact (ihf within.1).bind fun _ => ihr within.2

end Exec

end Frame

end MixT.Phase
