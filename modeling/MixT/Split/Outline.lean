import MixT.Split.Logging
import MixT.Split.Places
import MixT.Split.Refreshing

/-! # What a program comes to

Given the outcomes of its conditions, a program comes to a list of statements. Each phase
comes to those of its label, in the order of the program. -/

namespace MixT.Split

open Library

/-- Which way each condition goes, and how often each loop turns. -/
structure Outcomes where
  branch : Point → Bool
  turns : Point → Nat

section Outline

variable {L : Type*} (ω : Outcomes)

/-- The statements that a program comes to, each with its label. -/
def outline : Origin → List Nat → Statement L L → List (L × Event)
  | o, turns, .letIn l _ body => (l, .did ⟨o, turns⟩) :: outline (0 :: o) turns body
  | o, turns, .letRemote l _ body => (l, .did ⟨o, turns⟩) :: outline (0 :: o) turns body
  | o, turns, .operation l _ _ _ => [(l, .did ⟨o, turns⟩)]
  | o, turns, .assignment l _ _ => [(l, .did ⟨o, turns⟩)]
  | o, turns, .ret l _ => [(l, .returned ⟨o, turns⟩)]
  | o, turns, .accompanyWrite l _ => [(l, .did ⟨o, turns⟩)]
  | o, turns, .writeTombstone l _ => [(l, .did ⟨o, turns⟩)]
  | o, turns, .ifThen _ _ t e =>
      if ω.branch ⟨o, turns⟩ then outline (0 :: o) turns t else outline (1 :: o) turns e
  | o, turns, .whileLoop _ _ _ body =>
      (List.range (ω.turns ⟨o, turns⟩)).flatMap fun i => outline (0 :: o) (i :: turns) body
  | _, _, .nil _ => []
  | o, turns, .cons _ first rest => outline (0 :: o) turns first ++ outline (1 :: o) turns rest

/-- The statements that a phase comes to. -/
def Stmt.outline : List Nat → Stmt L → List Event
  | turns, .letIn o _ body => .did ⟨o, turns⟩ :: outline turns body
  | turns, .letRemote o _ body => .did ⟨o, turns⟩ :: outline turns body
  | turns, .operation o _ _ _ => [.did ⟨o, turns⟩]
  | turns, .assignment o _ _ => [.did ⟨o, turns⟩]
  | turns, .ret o _ => [.returned ⟨o, turns⟩]
  | turns, .accompanyWrite o _ => [.did ⟨o, turns⟩]
  | turns, .writeTombstone o _ => [.did ⟨o, turns⟩]
  | turns, .ifThen o _ t e => if ω.branch ⟨o, turns⟩ then outline turns t else outline turns e
  | turns, .whileLoop o _ _ body =>
      (List.range (ω.turns ⟨o, turns⟩)).flatMap fun i => outline (i :: turns) body
  | turns, .forEach o _ body =>
      (List.range (ω.turns ⟨o, turns⟩)).flatMap fun i => outline (i :: turns) body
  | turns, .cons first rest => outline turns first ++ outline turns rest
  | _, _ => []

/-- The point of a statement that is done or returned from. -/
def Event.point : Event → Point
  | .did p => p
  | .returned p => p
  | .branched p _ => p
  | .evaluated p _ _ => p
  | .replayed p _ _ => p

variable {ω} {o : Origin} {turns : List Nat}

/-- What an outline has was placed inside the statement, in the turns around it. -/
theorem outline_within {s : Statement L L} :
    ∀ x ∈ outline ω o turns s, o <:+ x.2.point.place ∧ turns <:+ x.2.point.turns ∧
      (x.2.point.place, x.1) ∈ places o s := by
  induction s generalizing o turns with
  | letIn l b body ih =>
      simp only [outline, places, List.mem_cons]
      rintro x (rfl | hx)
      · exact ⟨List.suffix_rfl, List.suffix_rfl, Or.inl rfl⟩
      · obtain ⟨place, turned, mem⟩ := ih x hx
        exact ⟨(List.suffix_cons _ _).trans place, turned, Or.inr mem⟩
  | letRemote l b body ih =>
      simp only [outline, places, List.mem_cons]
      rintro x (rfl | hx)
      · exact ⟨List.suffix_rfl, List.suffix_rfl, Or.inl rfl⟩
      · obtain ⟨place, turned, mem⟩ := ih x hx
        exact ⟨(List.suffix_cons _ _).trans place, turned, Or.inr mem⟩
  | ifThen l c t e iht ihe =>
      intro x hx
      simp only [outline] at hx
      simp only [places, List.mem_append]
      split at hx
      · obtain ⟨place, turned, mem⟩ := iht x hx
        exact ⟨(List.suffix_cons _ _).trans place, turned, Or.inl mem⟩
      · obtain ⟨place, turned, mem⟩ := ihe x hx
        exact ⟨(List.suffix_cons _ _).trans place, turned, Or.inr mem⟩
  | whileLoop l name c body ih =>
      intro x hx
      simp only [outline, List.mem_flatMap] at hx
      obtain ⟨i, -, hx⟩ := hx
      obtain ⟨place, turned, mem⟩ := ih x hx
      exact ⟨(List.suffix_cons _ _).trans place, (List.suffix_cons _ _).trans turned, mem⟩
  | nil l => simp [outline]
  | cons l first rest ihf ihr =>
      intro x hx
      simp only [outline, List.mem_append] at hx
      simp only [places, List.mem_append]
      obtain hx | hx := hx
      · obtain ⟨place, turned, mem⟩ := ihf x hx
        exact ⟨(List.suffix_cons _ _).trans place, turned, Or.inl mem⟩
      · obtain ⟨place, turned, mem⟩ := ihr x hx
        exact ⟨(List.suffix_cons _ _).trans place, turned, Or.inr mem⟩
  | _ => simp [outline, places, Event.point]

/-- What is done in a child of a statement is not done in the statement itself. -/
theorem outline_cons_nodup {i : Nat} {l : L} {s : Statement L L}
    (nodup : ((outline ω (i :: o) turns s).map Prod.snd).Nodup) :
    (((l, .did ⟨o, turns⟩) :: outline ω (i :: o) turns s).map Prod.snd).Nodup := by
  rw [List.map_cons, List.nodup_cons]
  refine ⟨fun mem => ?_, nodup⟩
  obtain ⟨x, hx, same⟩ := List.mem_map.mp mem
  have inside := (outline_within x hx).1
  rw [same] at inside
  exact not_suffix_cons inside

/-- A program comes to each statement, in each turn of the loops around it, once at most. -/
theorem outline_nodup {s : Statement L L} : ((outline ω o turns s).map Prod.snd).Nodup := by
  induction s generalizing o turns with
  | letIn l b body ih => exact outline_cons_nodup ih
  | letRemote l b body ih => exact outline_cons_nodup ih
  | ifThen l c t e iht ihe =>
      simp only [outline]
      split
      · exact iht
      · exact ihe
  | whileLoop l name c body ih =>
      simp only [outline, List.map_flatMap]
      rw [List.nodup_flatMap]
      refine ⟨fun i _ => ih, List.nodup_range.imp fun {i j} other => ?_⟩
      refine List.disjoint_left.mpr ?_
      intro e hi hj
      obtain ⟨x, hx, rfl⟩ := List.mem_map.mp hi
      obtain ⟨y, hy, same⟩ := List.mem_map.mp hj
      have turned := (outline_within y hy).2.1
      rw [same] at turned
      exact other (suffix_cons_inj (outline_within x hx).2.1 turned)
  | nil l => simp [outline]
  | cons l first rest ihf ihr =>
      simp only [outline, List.map_append]
      refine ihf.append ihr ?_
      rw [List.disjoint_left]
      intro e hf hr
      obtain ⟨x, hx, rfl⟩ := List.mem_map.mp hf
      obtain ⟨y, hy, same⟩ := List.mem_map.mp hr
      have inside := (outline_within y hy).1
      rw [same] at inside
      exact Nat.zero_ne_one (suffix_cons_inj (outline_within x hx).1 inside)
  | _ => simp [outline]

end Outline

section Passes

variable {L : Type*} {ω : Outcomes} {turns : List Nat}

namespace Stmt

theorem outline_append (s t : Stmt L) :
    (s.append t).outline ω turns = s.outline ω turns ++ t.outline ω turns := by
  induction s with
  | nil => rfl
  | cons first rest _ ih => simp [append, outline, ih]
  | _ => simp [append, outline]

theorem outline_collapse (s : Stmt L) : s.collapse.outline ω turns = s.outline ω turns := by
  induction s with
  | cons first rest ihf ihr => simp [collapse, outline_append, outline, ihf, ihr]
  | _ => rfl

theorem outline_removeUnused (requires : List (VarBinding L)) (s : Stmt L) :
    (removeUnused requires s).outline ω turns = s.outline ω turns := by
  induction s generalizing turns with
  | incrementOccurance o x => unfold removeUnused; split <;> rfl
  | incrementRemoteOccurance o x => unfold removeUnused; split <;> rfl
  | refreshRemoteOccurance o h => unfold removeUnused; split <;> rfl
  | _ => simp_all [removeUnused, outline]

theorem outline_keepRefreshes (p : VarRef Unit L → Bool) (s : Stmt L) :
    (s.keepRefreshes p).outline ω turns = s.outline ω turns := by
  induction s generalizing turns with
  | refreshRemoteOccurance o h => unfold keepRefreshes; split <;> rfl
  | _ => simp_all [keepRefreshes, outline]

theorem outline_of_empty {s : Stmt L} (h : s.isEmptySequence = true) : s.outline ω turns = [] := by
  induction s with
  | nil => rfl
  | cons first rest ihf ihr =>
      simp only [isEmptySequence, countSequence, Nat.add_eq_zero_iff, decide_eq_true_eq] at h ihf ihr
      simp [outline, ihf h.1, ihr h.2]
  | _ => simp [isEmptySequence, countSequence] at h

theorem outline_clearEmpty (s : Stmt L) : (clearEmpty s).ast.outline ω turns = s.outline ω turns := by
  induction s generalizing turns with
  | ifThen o c t e iht ihe =>
      rw [clearEmpty_ifThen]
      split
      · rename_i empty
        obtain ⟨ht, he⟩ := Bool.and_eq_true_iff.mp empty
        rw [outline, ← iht, ← ihe, outline_of_empty ht, outline_of_empty he, ite_self]
        rfl
      · simp [outline, iht, ihe]
  | cons first rest ihf ihr => simp [clearEmpty, outline_collapse, outline, ihf, ihr]
  | _ => simp_all [clearEmpty, outline]

end Stmt

end Passes

section Collect

variable {L : Type*} [LinearOrder L]

/-- Whatever stands in an if or in a loop has a label that the label of the if or the loop
flows to. -/
def Sheltered : Statement L L → Prop
  | .letIn _ _ body => Sheltered body
  | .letRemote _ _ body => Sheltered body
  | .ifThen l _ t e =>
      (∀ o, ∀ p ∈ places o t ++ places o e, FlowsTo l p.2) ∧ Sheltered t ∧ Sheltered e
  | .whileLoop l _ _ body => (∀ o, ∀ p ∈ places o body, FlowsTo l p.2) ∧ Sheltered body
  | .cons _ first rest => Sheltered first ∧ Sheltered rest
  | _ => True

variable {ω : Outcomes} {k : L} {inherits : List (VarBinding L)}

theorem ofLabel_flatMap {α β : Type*} (xs : List β) (f : β → List (L × α)) :
    ofLabel k (xs.flatMap f) = xs.flatMap fun x => ofLabel k (f x) := by
  induction xs with
  | nil => rfl
  | cons x xs ih => simp [ih]

/-- Nothing of a label comes from a statement whose places have other labels. -/
theorem ofLabel_outline_none {o : Origin} {turns : List Nat} {s : Statement L L}
    (other : ∀ p ∈ places o s, p.2 ≠ k) : ofLabel k (outline ω o turns s) = [] :=
  ofLabel_none fun x hx => other _ (outline_within x hx).2.2

/-- A collected phase comes to the statements of its label, in the order of the program. -/
theorem collectPhase_outline {provides : List (VarBinding L)} {o : Origin} {c : Collected L}
    {s : Statement L L} (sheltered : Sheltered s)
    (h : collectPhase k inherits o provides s = .ok c) (turns : List Nat) :
    c.ast.outline ω turns = ofLabel k (outline ω o turns s) := by
  induction s generalizing provides o c turns with
  | letIn l b body ih =>
      obtain ⟨rfl, -, reqs, c', -, hc, rfl⟩ | ⟨hl, c', hc, rfl⟩ := collectPhase_letIn h
      · have inner := ih sheltered hc turns
        unfold letAstIfOperation
        dsimp only
        split <;> simp [Stmt.outline, outline, inner]
      · simp [Stmt.outline, outline, ih sheltered hc turns, hl]
  | letRemote l b body ih =>
      obtain ⟨rfl, -, reqs, c', -, hc, rfl⟩ | ⟨hl, c', hc, ⟨-, reqs, -, rfl⟩ | ⟨-, rfl⟩⟩ :=
        collectPhase_letRemote h
      · simp [Stmt.outline, outline, ih sheltered hc turns]
      · simp [Stmt.outline, outline, ih sheltered hc turns, hl]
      · simp [outline, ih sheltered hc turns, hl]
  | operation l name hd args =>
      obtain ⟨rfl, reqs, -, rfl⟩ | ⟨hl, rfl⟩ := collectPhase_operation h
      · dsimp only
        split <;> simp [Stmt.outline, outline]
      · simp [Stmt.outline, outline, hl]
  | assignment l target e =>
      obtain ⟨rfl, reqs, -, rfl⟩ | ⟨hl, rfl⟩ := collectPhase_assignment h
      · simp [Stmt.outline, outline]
      · dsimp only
        split <;> simp [Stmt.outline, outline, hl]
  | ret l e =>
      obtain ⟨rfl, reqs, -, rfl⟩ | ⟨hl, rfl⟩ := collectPhase_ret h
      · simp [Stmt.outline, outline]
      · simp [Stmt.outline, outline, hl]
  | accompanyWrite l target =>
      obtain ⟨rfl, reqs, -, rfl⟩ | ⟨hl, rfl⟩ := collectPhase_accompanyWrite h
      · simp [Stmt.outline, outline]
      · simp [Stmt.outline, outline, hl]
  | writeTombstone l e =>
      obtain ⟨rfl, reqs, -, rfl⟩ | ⟨hl, rfl⟩ := collectPhase_writeTombstone h
      · simp [Stmt.outline, outline]
      · simp [Stmt.outline, outline, hl]
  | ifThen l x t e iht ihe =>
      obtain ⟨inside, ht, he⟩ := sheltered
      obtain ⟨-, reqs, ct, ce, -, hct, hce, rfl⟩ | ⟨hflow, rfl⟩ := collectPhase_ifThen h
      · simp only [Stmt.outline, outline, iht ht hct turns, ihe he hce turns]
        split <;> rfl
      · have other : ∀ i p, p ∈ places (i :: o) t ++ places (i :: o) e → p.2 ≠ k := by
          rintro i p hp rfl
          exact hflow (inside (i :: o) p hp)
        simp only [Stmt.outline, outline]
        split
        · exact (ofLabel_outline_none fun p hp => other 0 p (by simp [hp])).symm
        · exact (ofLabel_outline_none fun p hp => other 1 p (by simp [hp])).symm
  | whileLoop l name x body ih =>
      obtain ⟨inside, hbody⟩ := sheltered
      obtain ⟨rfl, reqs, c', -, hc, rfl⟩ | ⟨hk, -, -, c', hc, rfl⟩ | ⟨hk, hflow, rfl⟩ :=
        collectPhase_whileLoop h
      · simp only [Stmt.outline, outline, ofLabel_flatMap, ih hbody hc]
      · simp only [Stmt.outline, outline, ofLabel_flatMap, ih hbody hc]
      · have other : ∀ p ∈ places (0 :: o) body, p.2 ≠ k := by
          rintro p hp rfl
          exact hflow (inside _ p hp)
        simp [Stmt.outline, outline, ofLabel_flatMap, ofLabel_outline_none other]
  | nil l =>
      obtain rfl := collectPhase_nil h
      rfl
  | cons l first rest ihf ihr =>
      obtain ⟨cf, cr, hcf, hcr, rfl⟩ := collectPhase_cons h
      simp only [Stmt.outline_collapse, Stmt.outline, outline, ofLabel_append,
        ihf sheltered.1 hcf turns, ihr sheltered.2 hcr turns]

theorem finalPhase_outline [BoundedOrder L] {c : Collected L} {turns : List Nat} :
    (finalPhase k inherits c).ast.outline ω turns = c.ast.outline ω turns := by
  simp only [finalPhase, Stmt.outline_removeUnused, Stmt.outline_clearEmpty]

/-- Each phase comes to the statements of its label, in the order of the program. -/
theorem splitLabels_outline [BoundedOrder L] {prog : Statement L L} (sheltered : Sheltered prog)
    {ks : List L} {start : List (VarBinding L)} {phases : List (Prephase L)}
    (h : splitLabels prog start ks = .ok phases) :
    phases.map (fun P => P.ast.outline ω []) =
      ks.map fun k => ofLabel k (outline ω [] [] prog) := by
  induction ks generalizing start phases with
  | nil =>
      obtain rfl : [] = phases := by simpa [splitLabels] using h
      rfl
  | cons k ks ih =>
      obtain ⟨c, hc, h⟩ := except_bind_ok h
      obtain ⟨rest, hrest, h⟩ := except_bind_ok h
      simp only [Except.ok.injEq] at h
      subst h
      simp only [List.map_cons, ih hrest, finalPhase_outline, collectPhase_outline sheltered hc]

/-- Grouped by labels, each element occurs as often as before. -/
theorem flatMap_ofLabel_perm {α : Type*} {ks : List L} (nodup : ks.Nodup) {xs : List (L × α)}
    (covered : ∀ x ∈ xs, x.1 ∈ ks) :
    (ks.flatMap fun k => ofLabel k xs).Perm (xs.map Prod.snd) := by
  induction ks generalizing xs with
  | nil =>
      have empty : xs = [] := List.eq_nil_iff_forall_not_mem.mpr fun x hx => by simpa using covered x hx
      simp [empty]
  | cons k ks ih =>
      obtain ⟨fresh, nodup⟩ := List.nodup_cons.mp nodup
      have others : ∀ x ∈ xs.filter (fun x => x.1 ≠ k), x.1 ∈ ks := by
        intro x hx
        obtain ⟨mem, other⟩ := List.mem_filter.mp hx
        exact (List.mem_cons.mp (covered x mem)).resolve_left (by simpa using other)
      have kept : ∀ l ∈ ks, ofLabel l (xs.filter fun x => x.1 ≠ k) = ofLabel l xs := by
        intro l hl
        have other : ∀ x : L × α, x.1 = l → x.1 ≠ k := by
          rintro x rfl rfl
          exact fresh hl
        unfold ofLabel
        rw [List.filter_filter]
        congr 1
        apply List.filter_congr
        intro x _
        by_cases here : x.1 = l
        · simp [here, here ▸ other x here]
        · simp [here]
      have parts := List.filter_append_perm (fun x => decide (x.1 = k)) xs
      calc
        ((k :: ks).flatMap fun k => ofLabel k xs)
          = ofLabel k xs ++ ks.flatMap fun l => ofLabel l (xs.filter fun x => x.1 ≠ k) := by
            rw [List.flatMap_cons, List.flatMap_congr kept]
        List.Perm _ (ofLabel k xs ++ (xs.filter fun x => x.1 ≠ k).map Prod.snd) :=
          (ih nodup others).append_left _
        List.Perm _ (xs.map Prod.snd) := by
          simpa [ofLabel] using parts.map Prod.snd

end Collect

end MixT.Split
