import MixT.Split.Logging

/-! # Loops that repeat earlier turns

A phase that cannot evaluate the condition of a loop repeats its body as often as the counter
of the loop's name says. The counter has the turns of the loop of that name which was evaluated
last, in this phase or in a stronger one. -/

namespace MixT.Split

open Library Eff
open Phase (Mem)

section Log

/-- The turns of a loop of the name, where the event ends one. -/
def Event.count (name : VarName) : Event → Option Nat
  | .evaluated _ x c => if x = name then some c else none
  | _ => none

/-- The turns of the loop of the name that was evaluated last. -/
def lastCount (name : VarName) (log : List Event) : Option Nat :=
  log.reverse.findSome? (Event.count name)

theorem lastCount_append (name : VarName) (log : List Event) (e : Event) :
    lastCount name (log ++ [e]) = (e.count name).or (lastCount name log) := by
  simp only [lastCount, List.reverse_append, List.reverse_singleton, List.singleton_append,
    List.findSome?_cons]
  cases e.count name <;> rfl

variable {V F : Type} [Inhabited V] (host : Phase.Host V F)

/-- What the counter of a name says; a counter that was never set has some value. -/
def counted (name : VarName) (log : List Event) : Nat :=
  (lastCount name log).getD (host.count default)

/-- Each repeated loop turns as often as its counter says. -/
def Faithful (log : List Event) : Prop :=
  ∀ before p name c after, log = before ++ .replayed p name c :: after →
    c = counted host name before

theorem faithful_nil : Faithful host [] := fun _ _ _ _ _ split => by simp at split

theorem Faithful.record {log : List Event} (faithful : Faithful host log) {e : Event}
    (here : ∀ p name c, e = .replayed p name c → c = counted host name log) :
    Faithful host (log ++ [e]) := by
  intro before p name c after split
  obtain rfl | ⟨last, rest, rfl⟩ := List.eq_nil_or_concat' after
  · obtain ⟨rfl, last⟩ := List.append_inj' split rfl
    exact here p name c (List.singleton_inj.mp last)
  · have whole : log ++ [e] = (before ++ .replayed p name c :: last) ++ [rest] := by
      simpa using split
    obtain ⟨rfl, -⟩ := List.append_inj' whole rfl
    exact faithful before p name c last rfl

/-- The loop turned `c` times where its condition was evaluated. -/
def Turned (log : List Event) (p : Point) (c : Nat) : Prop :=
  (∃ x, .evaluated p x c ∈ log) ∧ ∀ x e, .evaluated p x e ∈ log → e = c

/-- Each repeated loop turns as often as it did where its condition was evaluated. -/
def ReplaysAsEvaluated (log : List Event) : Prop :=
  ∀ p y c, .replayed p y c ∈ log → Turned log p c

/-- Wherever a loop is repeated, the loop of its name that was evaluated last turned as often
as the one that is repeated. -/
def LastAsEvaluated (log : List Event) : Prop :=
  ∀ before p y c after, log = before ++ .replayed p y c :: after →
    Turned log p (counted host y before)

theorem Faithful.replays_iff {log : List Event} (faithful : Faithful host log) :
    ReplaysAsEvaluated log ↔ LastAsEvaluated host log := by
  constructor
  · rintro right before p y c after split
    have replayed : .replayed p y c ∈ log := by simp [split]
    rw [← faithful before p y c after split]
    exact right p y c replayed
  · rintro last p y c replayed
    obtain ⟨before, after, split⟩ := List.append_of_mem replayed
    rw [faithful before p y c after split]
    exact last before p y c after split

end Log

/-- The depth of a loop, where the name is its counter. -/
def depth : VarName → Option Nat
  | .counter _ d => some d
  | .ident _ => none

namespace Stmt

variable {L : Type*}

/-- Loops have counters for names, a loop inside another one at a greater depth; no variable
is named like a counter; and a return stands only where it is allowed, outside ifs and
loops. -/
def Counts : Nat → Bool → Stmt L → Prop
  | d, allowed, .letIn _ b body => depth b.var = none ∧ Counts d allowed body
  | d, allowed, .letRemote _ b body => depth b.var = none ∧ Counts d allowed body
  | _, _, .assignment _ target _ => depth target.baseVar = none
  | _, allowed, .ret _ _ => allowed = true
  | _, _, .incrementOccurance _ x => depth x = none
  | _, _, .incrementRemoteOccurance _ x => depth x = none
  | d, _, .ifThen _ _ t e => Counts d false t ∧ Counts d false e
  | d, _, .whileLoop _ name _ body => ∃ e, depth name = some e ∧ d ≤ e ∧ Counts (e + 1) false body
  | d, _, .forEach _ name body => ∃ e, depth name = some e ∧ d ≤ e ∧ Counts (e + 1) false body
  | d, allowed, .cons first rest => Counts d allowed first ∧ Counts d allowed rest
  | _, _, _ => True

end Stmt

section Run

variable {L V F Sh α β : Type} [Inhabited V] {host : Phase.Host V F}
  {backend : Phase.Backend V F Sh} {rightFirst : List Phase.Expr → Bool} {d : Nat}

/-- The counters of loops at depth `d` or deeper say what the log says, and every repeated
loop went by its counter. -/
structure Good (host : Phase.Host V F) (d : Nat) (st : Mem L V × Sh × List Event) : Prop where
  counters : ∀ x e, depth x = some e → d ≤ e → ∃ t, st.1.holders x = .value t ∧
    host.count (t.getD default) = counted host x st.2.2
  faithful : Faithful host st.2.2

/-- The holders of the counters in `P`, and what the log says of them, are as before. -/
def Unmoved (P : VarName → Prop) (st st' : Mem L V × Sh × List Event) : Prop :=
  ∀ x, P x → st'.1.holders x = st.1.holders x ∧ lastCount x st'.2.2 = lastCount x st.2.2

/-- The counter of a loop at a smaller depth. -/
def Outside (d : Nat) (x : VarName) : Prop := ∃ e, depth x = some e ∧ e < d

/-- How an execution fails: what it repeated went by its counters. Where it may return, it
may do so with the counters right. -/
def Failed (host : Phase.Host V F) (d : Nat) (allowed : Bool) (st : Mem L V × Sh × List Event)
    (e : Phase.Signal V F) (st' : Mem L V × Sh × List Event) : Prop :=
  Faithful host st'.2.2 ∧
    ∀ v, e = .returned v → allowed = true ∧ Good host d st' ∧ Unmoved (Outside d) st st'

/-- The execution keeps the counters right, and does not touch those outside. -/
def Keeping (host : Phase.Host V F) (d : Nat) (allowed : Bool) (a : Logging L V F Sh α) : Prop :=
  ∀ st, Good host d st →
    wp a (fun _ st' => Good host d st' ∧ Unmoved (Outside d) st st') (Failed host d allowed st) st

variable {st st' st'' : Mem L V × Sh × List Event} {P : VarName → Prop} {allowed : Bool}

omit [Inhabited V] in
theorem Unmoved.refl : Unmoved P st st := fun _ _ => ⟨rfl, rfl⟩

omit [Inhabited V] in
theorem Unmoved.trans (h : Unmoved P st st') (h' : Unmoved P st' st'') : Unmoved P st st'' :=
  fun x hx => ⟨(h' x hx).1.trans (h x hx).1, (h' x hx).2.trans (h x hx).2⟩

theorem Good.mono {e : Nat} (good : Good host d st) (le : d ≤ e) : Good host e st :=
  ⟨fun x f hf he => good.counters x f hf (le.trans he), good.faithful⟩

theorem Failed.trans {e : Phase.Signal V F} (same : Unmoved (Outside d) st st')
    (h : Failed host d allowed st' e st'') : Failed host d allowed st e st'' := by
  refine ⟨h.1, fun v returned => ?_⟩
  obtain ⟨may, good, same'⟩ := h.2 v returned
  exact ⟨may, good, same.trans same'⟩

theorem Keeping.bind {a : Logging L V F Sh α} {f : α → Logging L V F Sh β}
    (ha : Keeping host d allowed a) (hf : ∀ v, Keeping host d allowed (f v)) :
    Keeping host d allowed (a >>= f) := by
  intro st good
  rw [wp_bind]
  refine (ha st good).mono ?_ fun _ _ h => h
  rintro v st' ⟨good', same⟩
  refine (hf v st' good').mono ?_ fun e st'' => Failed.trans same
  rintro w st'' ⟨good'', same'⟩
  exact ⟨good'', same.trans same'⟩

theorem keeping_pure (v : α) : Keeping host d allowed (pure v : Logging L V F Sh α) :=
  fun _ good => ⟨good, .refl⟩

/-- What is right further in is right further out, if the counters between are left alone. -/
theorem Good.widen {e : Nat} (good : Good host d st) (good' : Good host e st')
    (same : Unmoved (Outside e) st st') : Good host d st' := by
  refine ⟨fun x f hf hd => ?_, good'.faithful⟩
  obtain inside | outside := Nat.lt_or_ge f e
  · obtain ⟨t, holder, count⟩ := good.counters x f hf hd
    obtain ⟨sameHolder, sameCount⟩ := same x ⟨f, hf, inside⟩
    exact ⟨t, sameHolder.trans holder, by rw [count, counted, counted, sameCount]⟩
  · exact good'.counters x f hf outside

omit [Inhabited V] in
theorem Unmoved.outside {e : Nat} (same : Unmoved (Outside e) st st') (le : d ≤ e) :
    Unmoved (Outside d) st st' := by
  rintro x ⟨f, hf, hd⟩
  exact same x ⟨f, hf, hd.trans_le le⟩

theorem Keeping.widen {e : Nat} {a : Logging L V F Sh α} (ha : Keeping host e allowed a)
    (le : d ≤ e) : Keeping host d allowed a := by
  intro st good
  refine (ha st (good.mono le)).mono ?_ ?_
  · rintro v st' ⟨good', same⟩
    exact ⟨good.widen good' same, same.outside le⟩
  · rintro signal st' ⟨faithful, returns⟩
    refine ⟨faithful, fun v returned => ?_⟩
    obtain ⟨may, good', same⟩ := returns v returned
    exact ⟨may, good.widen good' same, same.outside le⟩

/-- A silent execution that touches no counter. -/
structure Quiet (allowed : Bool) (a : Logging L V F Sh α) : Prop extends Silent allowed a where
  holders : ∀ st x e, depth x = some e → (a.run st).2.1.holders x = st.1.holders x

theorem Good.quiet (good : Good host d st)
    (holders : ∀ x e, depth x = some e → st'.1.holders x = st.1.holders x)
    (log : st'.2.2 = st.2.2) : Good host d st' ∧ Unmoved (Outside d) st st' := by
  refine ⟨⟨fun x e he hd => ?_, log ▸ good.faithful⟩, ?_⟩
  · rw [holders x e he, log]
    exact good.counters x e he hd
  · rintro x ⟨e, he, -⟩
    exact ⟨holders x e he, by rw [log]⟩

theorem Quiet.keeping {a : Logging L V F Sh α} (quiet : Quiet allowed a) :
    Keeping host d allowed a := by
  intro st good
  have holders := quiet.holders st
  have log := quiet.log st
  have returns := quiet.returns st
  unfold wp
  split
  · rename_i v st' hrun
    rw [hrun] at holders log
    exact good.quiet holders log
  · rename_i e st' hrun
    rw [hrun] at holders log returns
    obtain ⟨good', same⟩ := good.quiet holders log
    exact ⟨good'.faithful, fun v returned => ⟨returns v (by rw [returned]), good', same⟩⟩

/-- What may not return may stand where it could. -/
theorem Keeping.guarded {a : Logging L V F Sh α} (ha : Keeping host d false a) :
    Keeping host d allowed a := by
  intro st good
  refine (ha st good).mono (fun _ _ h => h) ?_
  rintro e st' ⟨faithful, returns⟩
  exact ⟨faithful, fun v returned => absurd (returns v returned).1 Bool.false_ne_true⟩

/-- An event that does not end a loop leaves the counters right, if a loop that it repeats
goes by its counter. -/
theorem Good.record {e : Event} {R : Phase.Signal V F → Mem L V × Sh × List Event → Prop}
    (good : Good host d st) (ends : ∀ x, e.count x = none)
    (here : ∀ p x c, e = .replayed p x c → c = counted host x st.2.2) :
    wp (record e : Logging L V F Sh Unit)
      (fun _ st' => Good host d st' ∧ Unmoved (Outside d) st st') R st := by
  have same : ∀ x, lastCount x (st.2.2 ++ [e]) = lastCount x st.2.2 := by
    intro x
    rw [lastCount_append, ends x, Option.none_or]
  refine ⟨⟨fun x f hf hd => ?_, good.faithful.record host here⟩, fun x _ => ⟨rfl, same x⟩⟩
  obtain ⟨t, holder, count⟩ := good.counters x f hf hd
  exact ⟨t, holder, by rw [count, counted, counted, same x]⟩

theorem keeping_record {e : Event} (ends : ∀ x, e.count x = none)
    (repeats : ∀ p x c, e ≠ .replayed p x c) :
    Keeping host d allowed (record e : Logging L V F Sh Unit) :=
  fun _ good => good.record ends fun p x c here => absurd here (repeats p x c)

theorem keeping_loggedRepeats {body : Nat → Logging L V F Sh Unit}
    (hbody : ∀ i, Keeping host d allowed (body i)) (n i : Nat) :
    Keeping host d allowed (loggedRepeats body n i) := by
  induction n generalizing i with
  | zero => exact keeping_pure ()
  | succ n ih => exact (hbody i).bind fun _ => ih (i + 1)

section While

variable {name : VarName}

/-- In the `i`-th turn of a loop: its counter is at `i`, and counters outside are as they
were at the start. -/
structure Turning (host : Phase.Host V F) (d : Nat) (name : VarName)
    (start : Mem L V × Sh × List Event) (i : Nat) (st : Mem L V × Sh × List Event) : Prop where
  good : Good host (d + 1) st
  counter : st.1.holders name = .value (some (host.ofInt i))
  unmoved : Unmoved (fun x => Outside (d + 1) x ∧ x ≠ name) start st

variable {start : Mem L V × Sh × List Event} {i : Nat}

theorem Turning.kept (hname : depth name = some d) (turning : Turning host d name start i st)
    (good : Good host (d + 1) st') (unmoved : Unmoved (Outside (d + 1)) st st') :
    Turning host d name start i st' := by
  refine ⟨good, ?_, turning.unmoved.trans fun x hx => unmoved x hx.1⟩
  rw [(unmoved name ⟨d, hname, Nat.lt_succ_self d⟩).1]
  exact turning.counter

/-- Setting the counter of a loop touches no other one. -/
theorem Turning.set (hname : depth name = some d)
    (good : Good host (d + 1) st) (unmoved : Unmoved (fun x => Outside (d + 1) x ∧ x ≠ name) start st)
    (j : Nat) :
    Turning host d name start j
      (st.1.setHolder name (.value (some (host.ofInt j))), st.2) := by
  refine ⟨⟨fun x f hf hd => ?_, good.faithful⟩, by simp [Mem.setHolder], fun x hx => ?_⟩
  · have other : x ≠ name := by
      rintro rfl
      rw [hname] at hf
      cases hf
      exact absurd hd (Nat.not_succ_le_self d)
    obtain ⟨t, holder, count⟩ := good.counters x f hf hd
    exact ⟨t, by simpa [Mem.setHolder, other] using holder, count⟩
  · obtain ⟨holders, count⟩ := unmoved x hx
    exact ⟨by simpa [Mem.setHolder, hx.2] using holders, count⟩

variable [DecidableEq L]

theorem wp_bindCounter {t : Option V} (holder : st.1.holders name = .value t) {v : V}
    {Q : Unit → Mem L V × Sh × List Event → Prop}
    {R : Phase.Signal V F → Mem L V × Sh × List Event → Prop} :
    wp (Phase.Exec.change fun m : Mem L V => m.bind host
      (backend.beside : Phase.Backend V F (Sh × List Event)) name v) Q R st ↔
      Q () (st.1.setHolder name (.value (some v)), st.2) := by
  simp only [wp, Phase.Exec.change, ExceptT.run_mk, Mem.bind, holder, run_pure]

theorem wp_pushCounter {t : Option V} (holder : st.1.holders name = .value t) {v : V}
    {Q : Unit → Mem L V × Sh × List Event → Prop}
    {R : Phase.Signal V F → Mem L V × Sh × List Event → Prop} :
    wp (Phase.Exec.change fun m : Mem L V => m.push host
      (backend.beside : Phase.Backend V F (Sh × List Event)) name v) Q R st ↔
      Q () (st.1.setHolder name (.value (some v)), st.2) := by
  simp only [wp, Phase.Exec.change, ExceptT.run_mk, Mem.push, holder, run_pure]

omit [DecidableEq L] in
/-- What fails inside a loop does not return. -/
theorem Failed.loop {e : Nat} {signal : Phase.Signal V F} (h : Failed host e false st signal st') :
    Failed host d allowed start signal st' :=
  ⟨h.1, fun v returned => absurd (h.2 v returned).1 Bool.false_ne_true⟩

/-- The turns of a loop leave its counter at their number. -/
theorem loggedTurns_turning (hname : depth name = some d)
    {body : Nat → Logging L V F Sh Unit} (hbody : ∀ i, Keeping host (d + 1) false (body i))
    {condition : Logging L V F Sh Bool} (hcondition : Quiet false condition) (n : Nat) (go : Bool)
    (turning : Turning host d name start i st) :
    wp (loggedTurns (fun i => Phase.Exec.change fun m : Mem L V =>
        m.push host backend.beside name (host.ofInt i)) body condition n i go)
      (fun c st' => c ≤ i + n ∧ Turning host d name start c st')
      (Failed host d allowed start) st := by
  induction n generalizing i go st with
  | zero =>
      cases go with
      | false => exact ⟨le_rfl, turning⟩
      | true => exact ⟨turning.good.faithful, fun _ returned => by cases returned⟩
  | succ n ih =>
      cases go with
      | false => exact ⟨Nat.le_add_right i _, turning⟩
      | true =>
          simp only [loggedTurns]
          rw [wp_bind, wp_pushCounter turning.counter, wp_bind]
          have pushed := Turning.set hname turning.good turning.unmoved (i + 1)
          refine (hbody i _ pushed.good).mono ?_ fun _ _ => Failed.loop
          rintro - st' ⟨good, unmoved⟩
          rw [wp_bind]
          have turned := pushed.kept hname good unmoved
          refine (hcondition.keeping st' turned.good).mono ?_ fun _ _ => Failed.loop
          rintro go st'' ⟨good', unmoved'⟩
          refine (ih go (turned.kept hname good' unmoved')).mono ?_ fun _ _ h => h
          rintro c st₃ ⟨le, last⟩
          exact ⟨by omega, last⟩

omit [DecidableEq L] in
/-- The end of a loop is logged with what its counter then says. -/
theorem record_evaluated {R : Phase.Signal V F → Mem L V × Sh × List Event → Prop} (hname : depth name = some d) (o : Point)
    (good : Good host d start) (turning : Turning host d name start i st)
    (counts : host.count (host.ofInt i) = i) :
    wp (record (.evaluated o name i) : Logging L V F Sh Unit)
      (fun _ st' => Good host d st' ∧ Unmoved (Outside d) start st') R st := by
  have last : ∀ x, lastCount x (st.2.2 ++ [.evaluated o name i]) =
      if name = x then some i else lastCount x st.2.2 := by
    intro x
    rw [lastCount_append]
    change (if name = x then some i else none).or _ = _
    split <;> rfl
  have faithful : Faithful host (st.2.2 ++ [.evaluated o name i]) :=
    turning.good.faithful.record host fun p x c here => by cases here
  refine ⟨⟨fun x f hf hd => ?_, faithful⟩, fun x hx => ?_⟩
  · by_cases here : name = x
    · subst here
      refine ⟨_, turning.counter, ?_⟩
      simp only [counted, last, if_true]
      exact counts
    · obtain inside | deeper := Nat.lt_or_ge f (d + 1)
      · obtain ⟨t, holder, count⟩ := good.counters x f hf hd
        obtain ⟨sameHolder, sameCount⟩ := turning.unmoved x ⟨⟨f, hf, inside⟩, Ne.symm here⟩
        refine ⟨t, sameHolder.trans holder, ?_⟩
        simp only [counted, last, if_neg here, sameCount]
        exact count
      · obtain ⟨t, holder, count⟩ := turning.good.counters x f hf deeper
        refine ⟨t, holder, ?_⟩
        simp only [counted, last, if_neg here]
        exact count
  · obtain ⟨f, hf, hd⟩ := hx
    have other : x ≠ name := by
      rintro rfl
      rw [hname] at hf
      cases hf
      exact absurd hd (lt_irrefl d)
    obtain ⟨sameHolder, sameCount⟩ := turning.unmoved x ⟨⟨f, hf, hd.trans (Nat.lt_succ_self d)⟩, other⟩
    exact ⟨sameHolder, by rw [last, if_neg (Ne.symm other), sameCount]⟩

end While

section Statements

omit [Inhabited V] in
theorem Quiet.bind {a : Logging L V F Sh α} {f : α → Logging L V F Sh β} (ha : Quiet allowed a)
    (hf : ∀ v, Quiet allowed (f v)) : Quiet allowed (a >>= f) := by
  refine ⟨ha.toSilent.bind fun v => (hf v).toSilent, fun st x e he => ?_⟩
  have first := ha.holders st x e he
  rw [run_bind]
  rcases hrun : a.run st with ⟨e | v, st'⟩ <;> rw [hrun] at first
  · exact first
  · exact ((hf v).holders st' x _ he).trans first

omit [Inhabited V] in
theorem quiet_pure (v : α) : Quiet allowed (pure v : Logging L V F Sh α) :=
  ⟨silent_pure v, fun _ _ _ _ => rfl⟩

theorem quiet_eval (e : Phase.Expr) :
    Quiet allowed (Phase.Exec.ofAct fun m : Mem L V => Phase.eval host
      (backend.beside : Phase.Backend V F (Sh × List Event)) rightFirst m e) :=
  ⟨silent_eval e, fun st x _ _ => (keeps_ofAct _ st rfl).1⟩

variable [DecidableEq L]

theorem quiet_bind {x : VarName} (user : depth x = none) (v : V) :
    Quiet allowed (Phase.Exec.change fun m : Mem L V => m.bind host
      (backend.beside : Phase.Backend V F (Sh × List Event)) x v) := by
  refine ⟨silent_bind x v, fun st y e he => ?_⟩
  have other : y ≠ x := by
    rintro rfl
    rw [user] at he
    cases he
  exact (keeps_change (fun m sh same => bind_frame other v same) st rfl).1

theorem quiet_exec (n : Nat) {s : Stmt L} (simple : s.simple = true)
    (user : ∀ x ∈ s.writes, depth x = none) (returns : ∀ o e, s = .ret o e → allowed = true) :
    Quiet allowed (Phase.exec host (backend.beside : Phase.Backend V F (Sh × List Event))
      rightFirst n s.toPhase) := by
  refine ⟨silent_exec n simple returns, fun st x e he => ?_⟩
  have unwritten : x ∉ s.writes := by
    intro written
    rw [user x written] at he
    cases he
  exact (exec_frame n unwritten st rfl).1

/-- A loop whose condition the phase evaluates. -/
theorem keeping_while (n : Nat) {o : Origin} {name : VarName} {c : VarRef Unit L} {body : Stmt L}
    {turns : List Nat} (hname : depth name = some d)
    (hbody : ∀ turns, Keeping host (d + 1) false (logged host backend rightFirst n body turns))
    (counts : ∀ i ≤ n, host.count (host.ofInt i) = i) :
    Keeping host d allowed (logged host backend rightFirst n (.whileLoop o name c body) turns) := by
  intro st good
  obtain ⟨t, holder, -⟩ := good.counters name d hname le_rfl
  have bound : Turning host d name st 0
      (st.1.setHolder name (.value (some (host.ofInt (0 : Nat)))), st.2) :=
    Turning.set hname (good.mono (Nat.le_succ d)) .refl 0
  simp only [logged]
  rw [wp_bind, wp_bindCounter holder, wp_bind]
  have condition : Quiet false (do
      let v ← Phase.Exec.ofAct fun m : Mem L V => Phase.eval host
        (backend.beside : Phase.Backend V F (Sh × List Event)) rightFirst m (.varReference c.var)
      pure (host.truth v)) := (quiet_eval _).bind fun v => quiet_pure (host.truth v)
  refine (condition.keeping _ bound.good).mono ?_ fun _ _ => Failed.loop
  rintro go st' ⟨good', unmoved⟩
  rw [wp_bind]
  have tested := bound.kept hname good' unmoved
  refine (loggedTurns_turning hname (fun i => hbody (i :: turns)) condition n go tested).mono ?_
    fun _ _ h => h
  rintro i st'' ⟨le, turning⟩
  exact record_evaluated hname ⟨o, turns⟩ good turning (counts i (by omega))

/-- A loop that repeats what its counter says. -/
theorem keeping_forEach (n : Nat) {o : Origin} {name : VarName} {body : Stmt L}
    {turns : List Nat} (hname : depth name = some d)
    (hbody : ∀ turns, Keeping host d false (logged host backend rightFirst n body turns)) :
    Keeping host d allowed (logged host backend rightFirst n (.forEach o name body) turns) := by
  intro st good
  obtain ⟨t, holder, count⟩ := good.counters name d hname le_rfl
  have read : ∀ sh : Sh × List Event, (Phase.getVar host
      (backend.beside : Phase.Backend V F (Sh × List Event)) st.1 name).run sh =
        (.ok (t.getD default), sh) := by
    intro sh
    cases name with
    | ident chars => cases hname
    | counter q e =>
        simp [Phase.getVar, Builtin.trueName, Builtin.falseName, Builtin.listName, Mem.get, holder]
  have recorded : wp (Phase.Exec.ofAct fun m : Mem L V => Phase.getVar host
        (backend.beside : Phase.Backend V F (Sh × List Event)) m name)
      (fun v st' => st' = st ∧ host.count v = counted host name st.2.2)
      (Failed host d allowed st) st := by
    simp only [wp, Phase.Exec.ofAct, ExceptT.run_mk, read]
    exact ⟨trivial, count⟩
  simp only [logged]
  rw [wp_bind]
  refine recorded.mono ?_ fun _ _ h => h
  rintro v st' ⟨rfl, bound⟩
  rw [wp_bind]
  have repeated : ∀ p x c, Event.replayed ⟨o, turns⟩ name (host.count v) = .replayed p x c →
      c = counted host x st'.2.2 := by
    rintro p x c ⟨⟩
    exact bound
  refine (good.record (fun _ => rfl) repeated).mono ?_ fun _ _ h => h
  rintro - st'' ⟨good', unmoved⟩
  refine (keeping_loggedRepeats (fun i => hbody (i :: turns)) _ 0 st'' good').mono ?_
    fun _ _ => Failed.loop
  rintro - st₃ ⟨good'', unmoved'⟩
  exact ⟨good'', unmoved.trans unmoved'⟩

/-- A phase keeps the counters right. -/
theorem logged_keeping (n : Nat) {s : Stmt L} (named : s.Counts d allowed) (turns : List Nat)
    (counts : ∀ i ≤ n, host.count (host.ofInt i) = i) :
    Keeping host d allowed (logged host backend rightFirst n s turns) := by
  have did : ∀ {d : Nat} {allowed : Bool} (p : Point),
      Keeping host d allowed (record (.did p) : Logging L V F Sh Unit) :=
    fun p => keeping_record (fun _ => rfl) fun _ _ _ => Event.noConfusion
  induction s generalizing d allowed turns with
  | letIn o b body ih =>
      exact (did _).bind fun _ => (quiet_eval _).keeping.bind fun v =>
        (quiet_bind named.1 v).keeping.bind fun _ => ih named.2 turns
  | letRemote o b body ih =>
      exact (did _).bind fun _ => (quiet_eval _).keeping.bind fun v =>
        (quiet_bind named.1 v).keeping.bind fun _ => ih named.2 turns
  | ret o e =>
      exact (keeping_record (fun _ => rfl) fun _ _ _ => Event.noConfusion).bind fun _ =>
        (quiet_exec n rfl (by simp [Stmt.writes]) fun _ _ _ => named).keeping
  | ifThen o c t e iht ihe =>
      refine (quiet_eval _).keeping.bind fun v => Keeping.bind ?_ fun _ => ?_
      · exact keeping_record (fun _ => rfl) fun _ _ _ => Event.noConfusion
      · split
        · exact (iht named.1 turns).guarded
        · exact (ihe named.2 turns).guarded
  | whileLoop o name c body ih =>
      obtain ⟨e, hname, le, body⟩ := named
      exact (keeping_while n hname (fun turns => ih body turns) counts).widen le
  | forEach o name body ih =>
      obtain ⟨e, hname, le, body⟩ := named
      exact (keeping_forEach n hname
        fun turns => (ih body turns).widen (Nat.le_succ e)).widen le
  | nil => exact keeping_pure ()
  | cons first rest ihf ihr => exact (ihf named.1 turns).bind fun _ => ihr named.2 turns
  | operation o name h args =>
      exact (did _).bind fun _ => (quiet_exec n rfl (by simp [Stmt.writes]) (by simp)).keeping
  | assignment o target e =>
      exact (did _).bind fun _ =>
        (quiet_exec n rfl (by simpa [Stmt.writes, Stmt.Counts] using named) (by simp)).keeping
  | accompanyWrite o target =>
      exact (did _).bind fun _ => (quiet_exec n rfl (by simp [Stmt.writes]) (by simp)).keeping
  | writeTombstone o e =>
      exact (did _).bind fun _ => (quiet_exec n rfl (by simp [Stmt.writes]) (by simp)).keeping
  | incrementOccurance o x =>
      exact (quiet_exec n rfl (by simpa [Stmt.writes, Stmt.Counts] using named) (by simp)).keeping
  | incrementRemoteOccurance o x =>
      exact (quiet_exec n rfl (by simpa [Stmt.writes, Stmt.Counts] using named) (by simp)).keeping
  | refreshRemoteOccurance o h =>
      exact (quiet_exec n rfl (by simp [Stmt.writes]) (by simp)).keeping

end Statements

end Run

section Names

variable {Λ L : Type*}

/-- No variable of a program is named like a counter. -/
def UserNames : Statement Λ L → Prop
  | .letIn _ b body => depth b.var = none ∧ UserNames body
  | .letRemote _ b body => depth b.var = none ∧ UserNames body
  | .assignment _ target _ => depth target.baseVar = none
  | .ifThen _ _ t e => UserNames t ∧ UserNames e
  | .whileLoop _ _ _ body => UserNames body
  | .cons _ first rest => UserNames first ∧ UserNames rest
  | _ => True

/-- The loops of a program have counters for names, a loop inside another one at a greater
depth; no variable is named like a counter; and a return stands only where it is allowed. -/
def CountsLoops : Nat → Bool → Statement Λ L → Prop
  | d, allowed, .letIn _ b body => depth b.var = none ∧ CountsLoops d allowed body
  | d, allowed, .letRemote _ b body => depth b.var = none ∧ CountsLoops d allowed body
  | _, _, .assignment _ target _ => depth target.baseVar = none
  | _, allowed, .ret _ _ => allowed = true
  | d, _, .ifThen _ _ t e => CountsLoops d false t ∧ CountsLoops d false e
  | d, _, .whileLoop _ name _ body =>
      ∃ e, depth name = some e ∧ d ≤ e ∧ CountsLoops (e + 1) false body
  | d, allowed, .cons _ first rest => CountsLoops d allowed first ∧ CountsLoops d allowed rest
  | _, _, _ => True

/-- Naming gives loops their counters. -/
theorem easyProcessing_countsLoops {seqnum d : Nat} {allowed inSequence : Bool}
    {s s' : Statement Λ L} (h : easyProcessing seqnum d allowed inSequence s = .ok s')
    (user : UserNames s) : CountsLoops d allowed s' := by
  induction s generalizing seqnum d allowed inSequence s' with
  | letIn l b body ih =>
      obtain ⟨body', hbody, rfl⟩ := easyProcessing_letIn h
      exact ⟨user.1, ih hbody user.2⟩
  | letRemote l b body ih =>
      obtain ⟨body', hbody, rfl⟩ := easyProcessing_letRemote h
      exact ⟨user.1, ih hbody user.2⟩
  | ret l e =>
      obtain ⟨may, rfl⟩ := easyProcessing_ret h
      exact may
  | ifThen l c t e iht ihe =>
      obtain ⟨t', e', ht, he, rfl⟩ := easyProcessing_ifThen h
      exact ⟨iht ht user.1, ihe he user.2⟩
  | whileLoop l name c body ih =>
      obtain ⟨body', hbody, rfl⟩ := easyProcessing_whileLoop h
      exact ⟨d, rfl, le_rfl, ih hbody user⟩
  | cons l first rest ihf ihr =>
      obtain ⟨_, f', r', hf, hr, rfl⟩ := easyProcessing_cons h
      exact ⟨ihf hf user.1, ihr hr user.2⟩
  | _ =>
      simp only [easyProcessing, pure, Except.pure, Except.ok.injEq] at h
      exact h ▸ user

namespace Stmt

theorem counts_append {d : Nat} {allowed : Bool} {s t : Stmt L} :
    (s.append t).Counts d allowed ↔ s.Counts d allowed ∧ t.Counts d allowed := by
  induction s with
  | nil => simp [append, Counts]
  | cons first rest _ ih => simp [append, Counts, ih, and_assoc]
  | _ => simp [append, Counts]

theorem counts_collapse {d : Nat} {allowed : Bool} {s : Stmt L} :
    s.collapse.Counts d allowed ↔ s.Counts d allowed := by
  induction s with
  | cons first rest ihf ihr => simp [collapse, counts_append, Counts, ihf, ihr]
  | _ => rfl

theorem Counts.removeUnused {d : Nat} {allowed : Bool} {requires : List (VarBinding L)}
    {s : Stmt L} (h : s.Counts d allowed) : (removeUnused requires s).Counts d allowed := by
  induction s generalizing d allowed with
  | letIn o b body ih => exact ⟨h.1, ih h.2⟩
  | letRemote o b body ih => exact ⟨h.1, ih h.2⟩
  | incrementOccurance o x =>
      unfold Split.removeUnused
      split
      · exact h
      · trivial
  | incrementRemoteOccurance o x =>
      unfold Split.removeUnused
      split
      · exact h
      · trivial
  | refreshRemoteOccurance o h =>
      unfold Split.removeUnused
      split <;> trivial
  | ifThen o c t e iht ihe => exact ⟨iht h.1, ihe h.2⟩
  | whileLoop o name c body ih =>
      obtain ⟨e, hname, le, hbody⟩ := h
      exact ⟨e, hname, le, ih hbody⟩
  | forEach o name body ih =>
      obtain ⟨e, hname, le, hbody⟩ := h
      exact ⟨e, hname, le, ih hbody⟩
  | cons first rest ihf ihr => exact ⟨ihf h.1, ihr h.2⟩
  | _ => exact h

theorem Counts.clearEmpty {d : Nat} {allowed : Bool} {s : Stmt L} (h : s.Counts d allowed) :
    (clearEmpty s).ast.Counts d allowed := by
  induction s generalizing d allowed with
  | letIn o b body ih => exact ⟨h.1, ih h.2⟩
  | letRemote o b body ih => exact ⟨h.1, ih h.2⟩
  | ifThen o c t e iht ihe =>
      rw [clearEmpty_ifThen]
      split
      · trivial
      · exact ⟨iht h.1, ihe h.2⟩
  | whileLoop o name c body ih =>
      obtain ⟨e, hname, le, hbody⟩ := h
      exact ⟨e, hname, le, ih hbody⟩
  | forEach o name body ih =>
      obtain ⟨e, hname, le, hbody⟩ := h
      exact ⟨e, hname, le, ih hbody⟩
  | cons first rest ihf ihr => exact counts_collapse.mpr ⟨ihf h.1, ihr h.2⟩
  | _ => exact h

end Stmt

variable [LinearOrder L] {k : L} {inherits provides : List (VarBinding L)} {o : Origin}
  {c : Collected L}

/-- Each phase has the loops of the program, with their counters. -/
theorem collectPhase_counts {d : Nat} {allowed : Bool} {s : Statement L L}
    (named : CountsLoops d allowed s) (h : collectPhase k inherits o provides s = .ok c) :
    c.ast.Counts d allowed := by
  induction s generalizing d allowed provides o c with
  | letIn l b body ih =>
      obtain ⟨rfl, -, reqs, c', -, hc, rfl⟩ | ⟨hl, c', hc, rfl⟩ := collectPhase_letIn h
      · have body := ih named.2 hc
        unfold letAstIfOperation
        dsimp only
        split
        · exact ⟨⟨named.1, body⟩, trivial, trivial⟩
        · exact ⟨named.1, body⟩
      · exact ⟨named.1, ih named.2 hc, trivial⟩
  | letRemote l b body ih =>
      obtain ⟨rfl, -, reqs, c', -, hc, rfl⟩ | ⟨hl, c', hc, ⟨-, reqs, -, rfl⟩ | ⟨-, rfl⟩⟩ :=
        collectPhase_letRemote h
      · exact ⟨named.1, ih named.2 hc⟩
      · exact ⟨named.1, ih named.2 hc, trivial⟩
      · exact ih named.2 hc
  | operation l name hd args =>
      obtain ⟨rfl, reqs, -, rfl⟩ | ⟨hl, rfl⟩ := collectPhase_operation h
      · dsimp only
        split
        · trivial
        · exact ⟨trivial, trivial, trivial⟩
      · trivial
  | assignment l target e =>
      obtain ⟨rfl, reqs, -, rfl⟩ | ⟨hl, rfl⟩ := collectPhase_assignment h
      · cases target <;> exact named
      · dsimp only
        split
        · exact named
        · trivial
  | ret l e =>
      obtain ⟨rfl, reqs, -, rfl⟩ | ⟨hl, rfl⟩ := collectPhase_ret h <;> trivial
  | accompanyWrite l target =>
      obtain ⟨rfl, reqs, -, rfl⟩ | ⟨hl, rfl⟩ := collectPhase_accompanyWrite h <;> trivial
  | writeTombstone l e =>
      obtain ⟨rfl, reqs, -, rfl⟩ | ⟨hl, rfl⟩ := collectPhase_writeTombstone h <;> trivial
  | ifThen l x t e iht ihe =>
      obtain ⟨-, reqs, ct, ce, -, hct, hce, rfl⟩ | ⟨hflow, rfl⟩ := collectPhase_ifThen h
      · exact ⟨iht named.1 hct, ihe named.2 hce⟩
      · trivial
  | whileLoop l name x body ih =>
      obtain ⟨e, hname, le, hbody⟩ := named
      obtain ⟨rfl, reqs, c', -, hc, rfl⟩ | ⟨hk, -, -, c', hc, rfl⟩ | ⟨hk, hflow, rfl⟩ :=
        collectPhase_whileLoop h
      · exact ⟨e, hname, le, ih hbody hc⟩
      · exact ⟨e, hname, le, ih hbody hc⟩
      · trivial
  | nil l =>
      obtain rfl := collectPhase_nil h
      trivial
  | cons l first rest ihf ihr =>
      obtain ⟨cf, cr, hcf, hcr, rfl⟩ := collectPhase_cons h
      exact Stmt.counts_collapse.mpr ⟨ihf named.1 hcf, ihr named.2 hcr⟩

theorem finalPhase_counts [BoundedOrder L] {d : Nat} {allowed : Bool}
    (h : c.ast.Counts d allowed) : (finalPhase k inherits c).ast.Counts d allowed :=
  h.removeUnused.clearEmpty.removeUnused

theorem splitLabels_counts [BoundedOrder L] {d : Nat} {allowed : Bool} {prog : Statement L L}
    (named : CountsLoops d allowed prog) {ks : List L} {start : List (VarBinding L)}
    {phases : List (Prephase L)} (h : splitLabels prog start ks = .ok phases) :
    ∀ P ∈ phases, P.ast.Counts d allowed := by
  induction ks generalizing start phases with
  | nil =>
      obtain rfl : [] = phases := by simpa [splitLabels] using h
      simp
  | cons k ks ih =>
      obtain ⟨c, hc, h⟩ := except_bind_ok h
      obtain ⟨rest, hrest, h⟩ := except_bind_ok h
      simp only [Except.ok.injEq] at h
      subst h
      simp only [List.forall_mem_cons]
      exact ⟨finalPhase_counts (collectPhase_counts named hc), ih hrest⟩

end Names

end MixT.Split
