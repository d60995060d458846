import MixT.Phase.Run

/-! # Remote variables and the objects behind them

A store holds objects under names. A remote variable refers to an object, and reads the
value that the map of its type of handle has for the object's name. The variable is current
while that is the object's value. -/

namespace MixT.Phase

open Library Eff

section Stores

variable {V F Sh : Type}

/-- What changed an object last: a write of the whole object, or an operation on it. -/
inductive Change
  | written
  | operated
  deriving DecidableEq, Repr

/-- The objects that there are, under their names. -/
abbrev Objects (V Sh : Type) := Sh → Nat → Option (Change × V)

/-- The objects are as they were, those of `apart` aside. -/
def Unchanged (object : Objects V Sh) (apart : Nat → Prop) (sh sh' : Sh) : Prop :=
  ∀ n o, ¬ apart n → object sh n = some o → object sh' n = some o

/-- The action changes no object. -/
def Steady (object : Objects V Sh) {α : Type} (a : Act F Sh α) : Prop :=
  ∀ sh, wlp a (fun _ sh' => Unchanged object (fun _ => False) sh sh') sh

/-- What a phase relies on: fetching gives the object, and only operations on an object
and writes to it change it. -/
structure Backend.Stores (host : Host V F) (backend : Backend V F Sh) (object : Objects V Sh) :
    Prop where
  get : ∀ h sh, wlp (backend.get h) (fun v sh' => Unchanged object (fun _ => False) sh sh' ∧
    ∃ change, object sh' (host.name h) = some (change, v)) sh
  put : ∀ h v sh, wlp (backend.put h v) (fun _ sh' => Unchanged object (· = host.name h) sh sh' ∧
    object sh' (host.name h) = some (.written, v)) sh
  act : ∀ name h vs sh, wlp (backend.act name h vs) (fun _ sh' =>
    Unchanged object (· = host.name h) sh sh' ∧
      ∃ v, object sh' (host.name h) = some (.operated, v)) sh
  isValid : ∀ h, Steady object (backend.isValid h)
  createNew : ∀ h v, Steady object (backend.createNew h v)
  readTracking : ∀ h, Steady object (backend.readTracking h)
  accompanyWrite : ∀ name v, Steady object (backend.accompanyWrite name v)
  writeTombstone : ∀ v, Steady object (backend.writeTombstone v)
  generateTombstone : Steady object backend.generateTombstone
  listStub : Steady object backend.listStub
  ensureList : ∀ v, Steady object (backend.ensureList v)
  pushBack : ∀ lst v, Steady object (backend.pushBack lst v)

variable {object : Objects V Sh} {apart : Nat → Prop}

theorem Unchanged.refl (sh : Sh) : Unchanged object apart sh sh := fun _ _ _ h => h

theorem Unchanged.trans {sh sh' sh'' : Sh} (h : Unchanged object apart sh sh')
    (h' : Unchanged object apart sh' sh'') : Unchanged object apart sh sh'' :=
  fun n o out here => h' n o out (h n o out here)

theorem Unchanged.mono {apart' : Nat → Prop} {sh sh' : Sh} (h : Unchanged object apart sh sh')
    (imp : ∀ n, apart n → apart' n) : Unchanged object apart' sh sh' :=
  fun n o out => h n o fun inside => out (imp n inside)

theorem steady_pure {α : Type} (v : α) : Steady object (pure v : Act F Sh α) := by
  intro sh
  rw [wlp_pure]
  exact .refl sh

theorem steady_ofExcept {α : Type} (r : Except F α) :
    Steady object (Eff.ofExcept r : Act F Sh α) := by
  rintro sh v sh' hrun
  rw [run_ofExcept] at hrun
  cases hrun
  exact .refl sh

theorem Steady.bind {α β : Type} {a : Act F Sh α} {f : α → Act F Sh β} (ha : Steady object a)
    (hf : ∀ v, Steady object (f v)) : Steady object (a >>= f) := by
  intro sh
  rw [wlp_bind]
  refine (ha sh).mono fun v sh' kept => ?_
  exact (hf v sh').mono fun _ _ kept' => kept.trans kept'

end Stores

section Coherence

variable {L V F Sh : Type} [Inhabited V]

/-- The vector of values ends with the current one. -/
def TypeHolder.Full (h : TypeHolder V) : Prop := (h.t.length : Int) = h.currPos + 1

omit [Inhabited V] in
theorem TypeHolder.full_empty : (TypeHolder.empty : TypeHolder V).Full := rfl

omit [Inhabited V] in
theorem TypeHolder.Full.push {h : TypeHolder V} (full : h.Full) (v : V) : (h.push v).Full := by
  simp only [Full, TypeHolder.push, List.length_append, List.length_singleton] at full ⊢
  omega

theorem TypeHolder.Full.get_push {h : TypeHolder V} (full : h.Full) (v : V) :
    (h.push v).get = v := by
  have last : (h.currPos + 1).toNat = h.t.length := by
    rw [← full]
    rfl
  have bound : 0 ≤ h.currPos + 1 := by
    rw [← full]
    exact Int.natCast_nonneg _
  simp [TypeHolder.push, TypeHolder.get, bound, last]

/-- The variable is remote and bound, through a handle of the type, to the object. -/
def Mem.Refers (host : Host V F) (m : Mem L V) (x : VarName) (handleType : Ty L) (n : Nat) : Prop :=
  ∃ handle currPos, m.holders x = .remote handleType handle currPos ∧ 0 ≤ currPos ∧
    host.name (Mem.handleAt handle currPos) = n

/-- The value is the object's, if an operation changed it last. -/
def Current (object : Objects V Sh) (sh : Sh) (n : Nat) (v : V) : Prop :=
  ∃ change w, object sh n = some (change, w) ∧ (change = .operated → v = w)

/-- Every remote variable is current, up to those that are stale for their object. -/
structure Coherent (host : Host V F) (object : Objects V Sh) (mapped : Ty L → Prop)
    (stale : VarName → Ty L → Nat → Prop) (m : Mem L V) (sh : Sh) : Prop where
  handles : ∀ x handleType handle currPos, m.holders x = .remote handleType handle currPos →
    mapped handleType ∧ (TypeHolder.mk handle currPos).Full
  maps : ∀ handleType n, (m.super handleType n).Full
  current : ∀ x handleType n, m.Refers host x handleType n →
    stale x handleType n ∨ Current object sh n (m.super handleType n).get

variable {host : Host V F} {object : Objects V Sh} {mapped : Ty L → Prop}
  {stale stale' : VarName → Ty L → Nat → Prop} {m : Mem L V} {sh sh' : Sh}

theorem Mem.Refers.get {x : VarName} {handleType : Ty L} {n : Nat}
    (h : m.Refers host x handleType n) : m.get host x = (m.super handleType n).get := by
  obtain ⟨handle, currPos, holder, -, rfl⟩ := h
  simp [Mem.get, holder]

/-- A variable that is not stale reads its object. -/
theorem Coherent.reads (coherent : Coherent host object mapped stale m sh) {x : VarName}
    {handleType : Ty L} {n : Nat} {v : V} (h : m.Refers host x handleType n)
    (fresh : ¬ stale x handleType n) (operated : object sh n = some (.operated, v)) :
    m.get host x = v := by
  obtain out | ⟨change, w, held, same⟩ := coherent.current x handleType n h
  · exact absurd out fresh
  · rw [operated, Option.some.injEq, Prod.mk.injEq] at held
    rw [h.get, held.2]
    exact same held.1.symm

theorem Coherent.mono (coherent : Coherent host object mapped stale m sh)
    (imp : ∀ x handleType n, m.Refers host x handleType n → stale x handleType n →
      stale' x handleType n) : Coherent host object mapped stale' m sh :=
  ⟨coherent.handles, coherent.maps, fun x handleType n h =>
    (coherent.current x handleType n h).imp_left (imp x handleType n h)⟩

omit [Inhabited V] in
theorem Current.kept {apart : Nat → Prop} {n : Nat} {v : V} (h : Current object sh n v)
    (kept : Unchanged object apart sh sh') (out : ¬ apart n) : Current object sh' n v := by
  obtain ⟨change, w, held, same⟩ := h
  exact ⟨change, w, kept n _ out held, same⟩

/-- After an operation, the variables that refer to its object are stale. -/
theorem Coherent.operated (coherent : Coherent host object mapped stale m sh) {n : Nat}
    (kept : Unchanged object (· = n) sh sh') :
    Coherent host object mapped
      (fun x handleType n' => stale x handleType n' ∨ n' = n ∧ m.Refers host x handleType n)
      m sh' := by
  refine ⟨coherent.handles, coherent.maps, fun x handleType n' h => ?_⟩
  by_cases here : n' = n
  · subst here
    exact Or.inl (Or.inr ⟨rfl, h⟩)
  · exact (coherent.current x handleType n' h).imp Or.inl fun current => current.kept kept here

/-- A write makes no claim on the variables that refer to its object. -/
theorem Coherent.written (coherent : Coherent host object mapped stale m sh) {n : Nat} {v : V}
    (kept : Unchanged object (· = n) sh sh') (held : object sh' n = some (.written, v)) :
    Coherent host object mapped stale m sh' := by
  refine ⟨coherent.handles, coherent.maps, fun x handleType n' h => ?_⟩
  by_cases here : n' = n
  · subst here
    exact Or.inr ⟨.written, v, held, fun operated => by cases operated⟩
  · exact (coherent.current x handleType n' h).imp_right fun current => current.kept kept here

theorem Coherent.kept (coherent : Coherent host object mapped stale m sh)
    (kept : Unchanged object (fun _ => False) sh sh') : Coherent host object mapped stale m sh' :=
  ⟨coherent.handles, coherent.maps, fun x handleType n h =>
    (coherent.current x handleType n h).imp_right fun current => current.kept kept id⟩

/-- A local variable refers to nothing. -/
theorem Coherent.setLocal (coherent : Coherent host object mapped stale m sh) (x : VarName)
    {h : Holder L V} (isLocal : ∀ handleType handle currPos, h ≠ .remote handleType handle currPos) :
    Coherent host object mapped stale (m.setHolder x h) sh := by
  have other : ∀ y handleType handle currPos,
      (m.setHolder x h).holders y = .remote handleType handle currPos →
        m.holders y = .remote handleType handle currPos := by
    intro y handleType handle currPos holder
    by_cases here : y = x
    · subst here
      simp only [Mem.setHolder, Function.update_self] at holder
      exact absurd holder (isLocal _ _ _)
    · simpa [Mem.setHolder, here] using holder
  refine ⟨fun y handleType handle currPos holder => ?_, coherent.maps, ?_⟩
  · exact coherent.handles y handleType handle currPos (other y _ _ _ holder)
  · rintro y handleType n ⟨handle, currPos, holder, bound, rfl⟩
    exact coherent.current y handleType _ ⟨handle, currPos, other y _ _ _ holder, bound, rfl⟩

/-- A remote variable that takes on a new handle is stale until its object is fetched. -/
theorem Coherent.setRemote (coherent : Coherent host object mapped stale m sh) {x : VarName}
    {handleType : Ty L} {handle : List V} {currPos : Int}
    (holder : m.holders x = .remote handleType handle currPos) (v : V) :
    Coherent host object mapped
      (fun y handleType' n =>
        stale y handleType' n ∨ y = x ∧ handleType' = handleType ∧ n = host.name v)
      (m.setHolder x (.remote handleType (handle ++ [v]) (currPos + 1))) sh := by
  obtain ⟨isMapped, full⟩ := coherent.handles x handleType handle currPos holder
  refine ⟨fun y handleType' handle' currPos' holder' => ?_, coherent.maps, ?_⟩
  · by_cases here : y = x
    · subst here
      simp only [Mem.setHolder, Function.update_self, Holder.remote.injEq] at holder'
      obtain ⟨rfl, rfl, rfl⟩ := holder'
      exact ⟨isMapped, full.push v⟩
    · apply coherent.handles y
      simpa [Mem.setHolder, here] using holder'
  · rintro y handleType' n ⟨handle', currPos', holder', bound, rfl⟩
    by_cases here : y = x
    · subst here
      simp only [Mem.setHolder, Function.update_self, Holder.remote.injEq] at holder'
      obtain ⟨rfl, rfl, rfl⟩ := holder'
      exact Or.inl (Or.inr ⟨rfl, rfl, congrArg host.name (full.get_push v)⟩)
    · have old : m.Refers host y handleType' (host.name (Mem.handleAt handle' currPos')) :=
        ⟨handle', currPos', by simpa [Mem.setHolder, here] using holder', bound, rfl⟩
      exact (coherent.current y handleType' _ old).imp_left Or.inl

variable [DecidableEq L]

/-- The value of an object goes to every variable that refers to it through the type. -/
theorem Coherent.pushSuper (coherent : Coherent host object mapped stale m sh) (handleType : Ty L)
    {n : Nat} {v : V} (current : Current object sh n v) :
    Coherent host object mapped
      (fun x handleType' n' => stale x handleType' n' ∧ ¬ (handleType' = handleType ∧ n' = n))
      (m.setSuper handleType n ((m.super handleType n).push v)) sh := by
  refine ⟨coherent.handles, fun handleType' n' => ?_, fun x handleType' n' h => ?_⟩
  · by_cases here : handleType' = handleType ∧ n' = n
    · obtain ⟨rfl, rfl⟩ := here
      simpa [Mem.setSuper] using (coherent.maps handleType' n').push v
    · simpa [Mem.setSuper, here] using coherent.maps handleType' n'
  · by_cases here : handleType' = handleType ∧ n' = n
    · obtain ⟨rfl, rfl⟩ := here
      right
      simpa [Mem.setSuper, (coherent.maps handleType' n').get_push v] using current
    · simpa [Mem.setSuper, here] using coherent.current x handleType' n' h

variable {backend : Backend V F Sh}

/-- Binding a variable keeps memories coherent. -/
theorem Coherent.bind (stores : backend.Stores host object)
    (coherent : Coherent host object mapped stale m sh) (x : VarName) (v : V) :
    wlp (m.bind host backend x v) (fun m' sh' => Coherent host object mapped stale m' sh') sh := by
  unfold Mem.bind
  cases holder : m.holders x with
  | value t =>
      rw [wlp_pure]
      exact coherent.setLocal x fun _ _ _ h => by cases h
  | type h =>
      rw [wlp_pure]
      exact coherent.setLocal x fun _ _ _ h => by cases h
  | remote handleType handle currPos =>
      have new : Mem.handleAt (handle ++ [v]) (currPos + 1) = v :=
        (coherent.handles x handleType handle currPos holder).2.get_push v
      simp only [new, wlp_bind]
      refine (stores.get v sh).mono ?_
      rintro o sh₁ ⟨kept, change, held⟩
      rw [wlp_bind]
      refine (stores.readTracking v sh₁).mono fun _ sh₂ kept' => ?_
      rw [wlp_pure]
      have fetched : Current object sh₂ (host.name v) o :=
        ⟨change, o, kept' _ _ id held, fun _ => rfl⟩
      apply (((coherent.kept kept).kept kept').setRemote holder v |>.pushSuper handleType fetched).mono
      rintro y handleType' n - ⟨old | ⟨rfl, rfl, rfl⟩, other⟩
      · exact old
      · exact absurd ⟨rfl, rfl⟩ other

/-- Assigning to a variable keeps memories coherent. -/
theorem Coherent.push (stores : backend.Stores host object)
    (coherent : Coherent host object mapped stale m sh) (x : VarName) (v : V) :
    wlp (m.push host backend x v) (fun m' sh' => Coherent host object mapped stale m' sh') sh := by
  unfold Mem.push
  cases holder : m.holders x with
  | value t =>
      rw [wlp_pure]
      exact coherent.setLocal x fun _ _ _ h => by cases h
  | type h =>
      rw [wlp_pure]
      exact coherent.setLocal x fun _ _ _ h => by cases h
  | remote handleType handle currPos =>
      have last : handle.getLastD default = Mem.handleAt handle currPos := by
        have full := (coherent.handles x handleType handle currPos holder).2
        rcases List.eq_nil_or_concat handle with rfl | ⟨front, h, rfl⟩
        · simp [Mem.handleAt, TypeHolder.get]
        · have front_full : (TypeHolder.mk front (currPos - 1)).Full := by
            simp only [TypeHolder.Full, List.concat_eq_append, List.length_append,
              List.length_singleton] at full ⊢
            omega
          have got := front_full.get_push h
          simp only [TypeHolder.push, Int.sub_add_cancel] at got
          simp [Mem.handleAt, got]
      simp only [last, wlp_bind]
      refine (stores.put _ v sh).mono ?_
      rintro - sh₁ ⟨kept, held⟩
      rw [wlp_pure]
      have now : Current object sh₁ (host.name (Mem.handleAt handle currPos)) v :=
        ⟨.written, v, held, fun operated => by cases operated⟩
      exact ((coherent.written kept held).pushSuper handleType now).mono fun _ _ _ _ h => h.1

/-- A refresh makes current what refers to the object through the type of the handle. -/
theorem Coherent.refresh (stores : backend.Stores host object)
    (coherent : Coherent host object mapped stale m sh) (handleType : Ty L) (h : V) :
    wlp (m.refresh host backend handleType h) (fun m' sh' =>
      Coherent host object mapped
        (fun x handleType' n => stale x handleType' n ∧
          ¬ (handleType' = handleType ∧ n = host.name h)) m' sh') sh := by
  unfold Mem.refresh
  rw [wlp_bind]
  refine (stores.get h sh).mono ?_
  rintro o sh₁ ⟨kept, change, held⟩
  rw [wlp_pure]
  exact (coherent.kept kept).pushSuper handleType ⟨change, o, held, fun _ => rfl⟩

end Coherence

section Exec

variable {L V F Sh α : Type}

theorem wlp_ofAct {a : Mem L V → Act F Sh α} {Q : α → Mem L V × Sh → Prop} {st : Mem L V × Sh} :
    wlp (Exec.ofAct a) Q st ↔ wlp (a st.1) (fun v sh => Q v (st.1, sh)) st.2 := by
  constructor
  · intro h v sh hrun
    apply h v (st.1, sh)
    simp only [Exec.ofAct, ExceptT.run_mk, hrun]
  · intro h v st' hrun
    simp only [Exec.ofAct, ExceptT.run_mk] at hrun
    rcases hact : (a st.1).run st.2 with ⟨f | w, sh⟩ <;> rw [hact] at hrun <;> cases hrun
    exact h v sh hact

theorem wlp_change {a : Mem L V → Act F Sh (Mem L V)} {Q : Unit → Mem L V × Sh → Prop}
    {st : Mem L V × Sh} :
    wlp (Exec.change a) Q st ↔ wlp (a st.1) (fun m sh => Q () (m, sh)) st.2 := by
  constructor
  · intro h m sh hrun
    apply h () (m, sh)
    simp only [Exec.change, ExceptT.run_mk, hrun]
  · intro h v st' hrun
    simp only [Exec.change, ExceptT.run_mk] at hrun
    rcases hact : (a st.1).run st.2 with ⟨f | m, sh⟩ <;> rw [hact] at hrun <;> cases hrun
    exact h m sh hact

end Exec

end MixT.Phase
