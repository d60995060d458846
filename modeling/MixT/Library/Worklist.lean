import Mathlib.Data.List.Nodup
import Mathlib.Data.List.Basic
import Mathlib.Tactic.Tauto

/-! # Worklists that shrink from the front

A round drops the front element, makes a pass over some fixed input with all
remaining elements as current ones, and appends what the pass finds at the back.
The list of all elements ever appended only grows. -/

namespace MixT.Library.Worklist

variable {E : Type*}

structure WorkList (E : Type*) where
  current : List E
  allTime : List E
  deriving DecidableEq, Repr

namespace WorkList

variable [DecidableEq E]

/-- Append an element, unless it was ever appended. -/
def append (wl : WorkList E) (e : E) : WorkList E :=
  if e ∈ wl.allTime then wl else ⟨wl.current ++ [e], wl.allTime ++ [e]⟩

/-- Append the current elements of another list. -/
def combine (wl other : WorkList E) : WorkList E := other.current.foldl append wl

end WorkList

open WorkList

/-! ## What is appended -/

/-- The second list is the first one with `d` appended, all of it new. -/
structure Extends (wl wl' : WorkList E) (d : List E) : Prop where
  eq : wl' = ⟨wl.current ++ d, wl.allTime ++ d⟩
  nodup : d.Nodup
  new : ∀ e ∈ d, e ∉ wl.allTime

theorem Extends.refl (wl : WorkList E) : Extends wl wl [] where
  eq := by simp
  nodup := List.nodup_nil
  new := by simp

theorem Extends.trans {w₁ w₂ w₃ : WorkList E} {d d' : List E} (h : Extends w₁ w₂ d)
    (h' : Extends w₂ w₃ d') : Extends w₁ w₃ (d ++ d') := by
  have fresh : ∀ e ∈ d', e ∉ w₁.allTime ++ d := by
    intro e mem
    have outside := h'.new e mem
    rwa [h.eq] at outside
  refine ⟨?_, ?_, ?_⟩
  · rw [h'.eq, h.eq]
    simp
  · apply h.nodup.append h'.nodup
    intro e in_d in_d'
    exact fresh e in_d' (List.mem_append_right _ in_d)
  · intro e mem
    rcases List.mem_append.mp mem with in_d | in_d'
    · exact h.new e in_d
    · exact fun old => fresh e in_d' (List.mem_append_left _ old)

section Appending

variable [DecidableEq E]

theorem extends_append (wl : WorkList E) (e : E) :
    Extends wl (wl.append e) (if e ∈ wl.allTime then [] else [e]) := by
  by_cases old : e ∈ wl.allTime
  · simpa [append, old] using Extends.refl wl
  · refine ⟨by simp [append, old], by simp [old], ?_⟩
    simp [old]

theorem extends_foldl (l : List E) (wl : WorkList E) :
    ∃ d, Extends wl (l.foldl append wl) d ∧ ∀ e, e ∈ d ↔ e ∈ l ∧ e ∉ wl.allTime := by
  induction l generalizing wl with
  | nil => exact ⟨[], Extends.refl wl, by simp⟩
  | cons x rest ih =>
      have first := extends_append wl x
      obtain ⟨d, ext, mem⟩ := ih (wl.append x)
      refine ⟨_, first.trans ext, ?_⟩
      intro e
      rw [List.mem_append, mem, first.eq]
      by_cases old : x ∈ wl.allTime
      · have other : e ∉ wl.allTime → e ≠ x := fun new same => new (same ▸ old)
        simp only [old, if_true, List.not_mem_nil, List.append_nil, false_or, List.mem_cons]
        constructor
        · rintro ⟨in_rest, new⟩
          exact ⟨Or.inr in_rest, new⟩
        · rintro ⟨here, new⟩
          exact ⟨here.resolve_left (other new), new⟩
      · simp only [old, if_false, List.mem_append, List.mem_cons, List.not_mem_nil, or_false,
          not_or]
        constructor
        · rintro (rfl | ⟨in_rest, new, -⟩)
          · exact ⟨Or.inl rfl, old⟩
          · exact ⟨Or.inr in_rest, new⟩
        · rintro ⟨here, new⟩
          by_cases same : e = x
          · exact Or.inl same
          · exact Or.inr ⟨here.resolve_left same, new, same⟩

end Appending

section Finds

variable (sentinel : E)

/-- Every current element but the sentinel has been appended. -/
def Sane (wl : WorkList E) : Prop := ∀ e ∈ wl.current, e ≠ sentinel → e ∈ wl.allTime

/-- The pass from the first list to the second finds `F`. The sentinel does not count:
combining two lists may append it. -/
def Finds (wl wl' : WorkList E) (F : E → Prop) : Prop :=
  ∃ d, Extends wl wl' d ∧ ∀ e, e ≠ sentinel → (e ∈ d ↔ F e ∧ e ∉ wl.allTime)

variable {sentinel} {wl w₁ w₂ : WorkList E} {F G : E → Prop}

theorem Finds.congr (h : Finds sentinel wl w₁ F) (same : ∀ e, F e ↔ G e) :
    Finds sentinel wl w₁ G := by
  obtain ⟨d, ext, mem⟩ := h
  exact ⟨d, ext, fun e he => by rw [mem e he, same e]⟩

theorem finds_nothing (wl : WorkList E) : Finds sentinel wl wl fun _ => False :=
  ⟨[], Extends.refl wl, by simp⟩

variable [DecidableEq E]

theorem finds_append (wl : WorkList E) (x : E) :
    Finds sentinel wl (wl.append x) fun e => e = x := by
  refine ⟨_, extends_append wl x, ?_⟩
  intro e _
  split
  · rename_i old
    simp only [List.not_mem_nil, false_iff, not_and, not_not]
    rintro rfl
    exact old
  · rename_i new
    simp only [List.mem_singleton]
    constructor
    · rintro rfl
      exact ⟨rfl, new⟩
    · exact And.left

/-- Two passes from the same list, combined, find what either of them finds. -/
theorem Finds.combine (sane : Sane sentinel wl) (h₁ : Finds sentinel wl w₁ F)
    (h₂ : Finds sentinel wl w₂ G) :
    Finds sentinel wl (w₁.combine w₂) fun e => F e ∨ G e := by
  obtain ⟨d₁, ext₁, mem₁⟩ := h₁
  obtain ⟨d₂, ext₂, mem₂⟩ := h₂
  obtain ⟨d, ext, mem⟩ := extends_foldl w₂.current w₁
  refine ⟨d₁ ++ d, ext₁.trans ext, ?_⟩
  intro e he
  have old : e ∈ wl.current → e ∈ wl.allTime := fun here => sane e here he
  rw [List.mem_append, mem, ext₂.eq, ext₁.eq, List.mem_append, List.mem_append, mem₁ e he,
    mem₂ e he]
  tauto

end Finds

/-! ## Rounds -/

/-- Rounds until the list is empty, at most the given number of them. -/
def rounds (pass : WorkList E → Option (WorkList E)) : ℕ → WorkList E → Option (WorkList E)
  | 0, wl => some wl
  | _ + 1, ⟨[], all⟩ => some ⟨[], all⟩
  | n + 1, ⟨_ :: rest, all⟩ => (pass ⟨rest, all⟩).bind (rounds pass n)

/-- What the base leads to along the references. -/
inductive Closure (base : E → Prop) (refs : E → E → Prop) : E → Prop
  | base {e : E} : base e → Closure base refs e
  | step {c e : E} : Closure base refs c → refs c e → Closure base refs e

/-- A pass finds the base and what the current elements refer to. It fails if it must
always, or if one of the current elements makes it fail. -/
structure PassSpec (sentinel : E) (base : E → Prop) (refs : E → E → Prop) (fails : Prop)
    (blocks : E → Prop) (pass : WorkList E → Option (WorkList E)) : Prop where
  base_ne : ∀ e, base e → e ≠ sentinel
  refs_ne : ∀ c e, refs c e → e ≠ sentinel
  refs_sentinel : ∀ e, ¬ refs sentinel e
  stops : ∀ wl, Sane sentinel wl → (fails ∨ ∃ e ∈ wl.current, blocks e) → pass wl = none
  finds : ∀ wl, Sane sentinel wl → ¬ (fails ∨ ∃ e ∈ wl.current, blocks e) →
    ∃ wl', pass wl = some wl' ∧
      Finds sentinel wl wl' fun e => base e ∨ ∃ c ∈ wl.current, refs c e

/-- The list that the first round starts from: one element to drop and one to be current. -/
def start (sentinel : E) : WorkList E := ⟨[sentinel, sentinel], []⟩

/-- What every round keeps: an element ever appended is current in the next round, or
was current in one that succeeded and found all it refers to. -/
structure Progress (sentinel : E) (base : E → Prop) (refs : E → E → Prop) (fails : Prop)
    (blocks : E → Prop) (wl : WorkList E) : Prop where
  sane : Sane sentinel wl
  nodup : wl.allTime.Nodup
  sound : ∀ e ∈ wl.allTime, e ≠ sentinel → Closure base refs e
  done : ∀ e ∈ wl.allTime, e ≠ sentinel →
    e ∈ wl.current.tail ∨ (¬ blocks e ∧ ∀ e', refs e e' → e' ∈ wl.allTime)
  begun : wl = start sentinel ∨ (¬ fails ∧ ∀ e, base e → e ∈ wl.allTime)

section Runs

variable {sentinel : E} {base : E → Prop} {refs : E → E → Prop} {fails : Prop}
variable {blocks : E → Prop} {pass : WorkList E → Option (WorkList E)}

theorem progress_start : Progress sentinel base refs fails blocks (start sentinel) where
  sane := by simp [Sane, start]
  nodup := List.nodup_nil
  sound := by simp [start]
  done := by simp [start]
  begun := Or.inl rfl

/-- One round that succeeds. -/
theorem Progress.round (spec : PassSpec sentinel base refs fails blocks pass) {c : E}
    {rest all : List E} (h : Progress sentinel base refs fails blocks ⟨c :: rest, all⟩)
    {wl' : WorkList E} (ran : pass ⟨rest, all⟩ = some wl') :
    Progress sentinel base refs fails blocks wl' ∧
      ∃ d, Extends ⟨rest, all⟩ wl' d := by
  have sane : Sane sentinel (⟨rest, all⟩ : WorkList E) :=
    fun e mem => h.sane e (List.mem_cons_of_mem c mem)
  have succeeded : ¬ (fails ∨ ∃ e ∈ rest, blocks e) := by
    intro stopped
    rw [spec.stops _ sane stopped] at ran
    cases ran
  obtain ⟨w, hw, d, ext, mem⟩ := spec.finds _ sane succeeded
  cases Option.some.inj (ran.symm.trans hw)
  refine ⟨?_, d, ext⟩
  have found (e : E) (he : e ≠ sentinel)
      (hit : base e ∨ ∃ c ∈ rest, refs c e) : e ∈ all ++ d := by
    by_cases old : e ∈ all
    · exact List.mem_append_left _ old
    · exact List.mem_append_right _ ((mem e he).mpr ⟨hit, old⟩)
  have based : ¬ fails ∧ ∀ e, base e → e ∈ all ++ d :=
    ⟨fun f => succeeded (Or.inl f), fun e b => found e (spec.base_ne e b) (Or.inl b)⟩
  rw [ext.eq]
  refine ⟨?_, ?_, ?_, ?_, Or.inr based⟩
  · intro e here he
    rcases List.mem_append.mp here with in_rest | in_d
    · exact List.mem_append_left _ (sane e in_rest he)
    · exact List.mem_append_right _ in_d
  · apply h.nodup.append ext.nodup
    intro e old new
    exact ext.new e new old
  · intro e here he
    rcases List.mem_append.mp here with old | new
    · exact h.sound e old he
    · rcases ((mem e he).mp new).1 with b | ⟨c', in_rest, r⟩
      · exact Closure.base b
      · have c_ne : c' ≠ sentinel := by
          rintro rfl
          exact spec.refs_sentinel e r
        exact Closure.step (h.sound c' (sane c' in_rest c_ne) c_ne) r
  · intro e here he
    rcases List.mem_append.mp here with old | new
    · rcases h.done e old he with in_rest | ⟨open', refs_in⟩
      · refine Or.inr ⟨fun b => succeeded (Or.inr ⟨e, in_rest, b⟩), ?_⟩
        intro e' r
        exact found e' (spec.refs_ne e e' r) (Or.inr ⟨e, in_rest, r⟩)
      · exact Or.inr ⟨open', fun e' r => List.mem_append_left _ (refs_in e' r)⟩
    · -- Something new is found only while an old element is still there to be dropped.
      left
      cases rest with
      | cons x rest => exact List.mem_append_right _ new
      | nil =>
          exfalso
          obtain ⟨hit, not_old⟩ := (mem e he).mp new
          rcases hit with b | ⟨c', in_nil, -⟩
          · rcases h.begun with begin | ⟨-, all_base⟩
            · cases begin
            · exact not_old (all_base e b)
          · cases in_nil

/-- Everything that rounds lead to is in progress, and the empty list is where they end. -/
theorem Progress.run (spec : PassSpec sentinel base refs fails blocks pass) {n : ℕ}
    {wl wl' : WorkList E} (h : Progress sentinel base refs fails blocks wl)
    (ran : rounds pass n wl = some wl') : Progress sentinel base refs fails blocks wl' := by
  induction n generalizing wl with
  | zero =>
      cases ran
      exact h
  | succ n ih =>
      obtain ⟨current, all⟩ := wl
      cases current with
      | nil =>
          cases ran
          exact h
      | cons c rest =>
          obtain ⟨next, passed, ran⟩ := Option.bind_eq_some_iff.mp ran
          exact ih (h.round spec passed).1 ran

variable {n : ℕ} {all : List E}

/-- Where the list gets empty, what was appended is exactly the closure, and nothing
in it makes a pass fail. -/
theorem rounds_empty (spec : PassSpec sentinel base refs fails blocks pass)
    (ran : rounds pass n (start sentinel) = some ⟨[], all⟩) :
    ¬ fails ∧ (∀ e, Closure base refs e → ¬ blocks e) ∧
      ∀ e, e ≠ sentinel → (e ∈ all ↔ Closure base refs e) := by
  have h := progress_start.run spec ran
  obtain ⟨open', based⟩ := h.begun.resolve_left (by simp [start])
  have finished (e : E) (here : e ∈ all) (he : e ≠ sentinel) :=
    (h.done e here he).resolve_left (List.not_mem_nil (a := e))
  have complete (e : E) (reached : Closure base refs e) : e ∈ all ∧ e ≠ sentinel := by
    induction reached with
    | base b => exact ⟨based _ b, spec.base_ne _ b⟩
    | step _ r ih => exact ⟨(finished _ ih.1 ih.2).2 _ r, spec.refs_ne _ _ r⟩
  refine ⟨open', ?_, ?_⟩
  · intro e reached
    obtain ⟨here, he⟩ := complete e reached
    exact (finished e here he).1
  · intro e he
    exact ⟨fun here => h.sound e here he, fun reached => (complete e reached).1⟩

/-- If nothing in the closure makes a pass fail, rounds from any list in progress end: each
makes the list shorter by one for all that is appended. -/
theorem Progress.rounds_end (spec : PassSpec sentinel base refs fails blocks pass)
    {bound : List E} (bounded : ∀ e, Closure base refs e → e ∈ bound) (open' : ¬ fails)
    (unblocked : ∀ e, Closure base refs e → ¬ blocks e) (sentinel_unblocked : ¬ blocks sentinel)
    (k : ℕ) {wl : WorkList E} (h : Progress sentinel base refs fails blocks wl)
    (measure : wl.current.length + (bound.length + 1) ≤ wl.allTime.length + k) :
    ∃ n all, rounds pass n wl = some ⟨[], all⟩ := by
  have few {wl : WorkList E} (h : Progress sentinel base refs fails blocks wl) :
      wl.allTime.length ≤ bound.length + 1 := by
    have inside : wl.allTime ⊆ sentinel :: bound := by
      intro e here
      by_cases he : e = sentinel
      · exact he ▸ List.mem_cons_self
      · exact List.mem_cons_of_mem _ (bounded e (h.sound e here he))
    simpa using h.nodup.length_le_of_subset inside
  induction k generalizing wl with
  | zero =>
      obtain ⟨current, all⟩ := wl
      have short := few h
      have empty : current = [] := List.eq_nil_of_length_eq_zero (by simp at measure short; omega)
      subst empty
      exact ⟨0, all, rfl⟩
  | succ k ih =>
      obtain ⟨current, all⟩ := wl
      cases current with
      | nil => exact ⟨0, all, rfl⟩
      | cons c rest =>
          have sane : Sane sentinel (⟨rest, all⟩ : WorkList E) :=
            fun e mem => h.sane e (List.mem_cons_of_mem c mem)
          have runs : ¬ (fails ∨ ∃ e ∈ rest, blocks e) := by
            rintro (f | ⟨e, here, b⟩)
            · exact open' f
            · by_cases he : e = sentinel
              · exact sentinel_unblocked (he ▸ b)
              · exact unblocked e (h.sound e (sane e here he) he) b
          obtain ⟨next, passed, -⟩ := spec.finds _ sane runs
          obtain ⟨progress, d, ext⟩ := h.round spec passed
          have smaller : next.current.length + (bound.length + 1) ≤ next.allTime.length + k := by
            rw [ext.eq]
            simp only [List.length_append, List.length_cons] at measure ⊢
            omega
          obtain ⟨n, final, ran⟩ := ih progress smaller
          exact ⟨n + 1, final, Option.bind_eq_some_iff.mpr ⟨next, passed, ran⟩⟩

/-- For a finite closure: the rounds end exactly when nothing makes a pass fail. -/
theorem rounds_end_iff (spec : PassSpec sentinel base refs fails blocks pass) (bound : List E)
    (bounded : ∀ e, Closure base refs e → e ∈ bound) (sentinel_unblocked : ¬ blocks sentinel) :
    (∃ n all, rounds pass n (start sentinel) = some ⟨[], all⟩) ↔
      ¬ fails ∧ ∀ e, Closure base refs e → ¬ blocks e := by
  constructor
  · rintro ⟨n, all, ran⟩
    obtain ⟨open', unblocked, -⟩ := rounds_empty spec ran
    exact ⟨open', unblocked⟩
  · rintro ⟨open', unblocked⟩
    exact progress_start.rounds_end spec bounded open' unblocked sentinel_unblocked
      (bound.length + 3) (by simp [start]; omega)

end Runs

end MixT.Library.Worklist
