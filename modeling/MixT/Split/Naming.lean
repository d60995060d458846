import MixT.Inference.Accepted

/-! # Names for loops

The first pass of the splitter names each loop after its place, and accepts a return
only outside ifs and loops and at the end of a sequence. -/

namespace MixT.Split

open Library

inductive NamingError
  | returnNotAtTopLevel
  | deadCode
  deriving DecidableEq, Repr

variable {Λ L : Type*}

/-- `easy_processing`. The parameter `inSequence` tells the rest of a sequence from a
statement of its own; the elements of a sequence are counted from one more. -/
def easyProcessing : Nat → Nat → Bool → Bool → Statement Λ L →
    Except NamingError (Statement Λ L)
  | seqnum, depth, allowed, _, .letIn l b body => do
      let body ← easyProcessing seqnum depth allowed false body
      pure (.letIn l b body)
  | seqnum, depth, allowed, _, .letRemote l b body => do
      let body ← easyProcessing seqnum depth allowed false body
      pure (.letRemote l b body)
  | _, _, allowed, _, .ret l e => if allowed then pure (.ret l e) else .error .returnNotAtTopLevel
  | seqnum, depth, _, _, .ifThen l c t e => do
      let t ← easyProcessing seqnum depth false false t
      let e ← easyProcessing seqnum depth false false e
      pure (.ifThen l c t e)
  | seqnum, depth, _, _, .whileLoop l _ c body => do
      let body ← easyProcessing seqnum (depth + 1) false false body
      pure (.whileLoop l (.counter seqnum depth) c body)
  | seqnum, depth, allowed, inSequence, .cons l first rest => do
      let s := if inSequence then seqnum else seqnum + 1
      let first' ← easyProcessing s depth allowed false first
      match first, rest with
      | .ret _ _, .cons _ _ _ => .error .deadCode
      | _, _ =>
          let rest ← easyProcessing (s + 1) depth allowed true rest
          pure (.cons l first' rest)
  | _, _, _, _, s => pure s

/-- `easy_processing_pass`. -/
def easyProcessingPass (s : Statement Λ L) : Except NamingError (Statement Λ L) :=
  easyProcessing 1 1 true false s

section Inversion

variable {seqnum depth : Nat} {allowed inSequence : Bool} {s' : Statement Λ L}

theorem easyProcessing_letIn {l : Λ} {b : Binding Λ L (Expression Λ L)} {body : Statement Λ L}
    (h : easyProcessing seqnum depth allowed inSequence (.letIn l b body) = .ok s') :
    ∃ body', easyProcessing seqnum depth allowed false body = .ok body' ∧ s' = .letIn l b body' := by
  obtain ⟨body', hbody, h⟩ := except_bind_ok h
  simp only [pure, Except.pure, Except.ok.injEq] at h
  exact ⟨body', hbody, h.symm⟩

theorem easyProcessing_letRemote {l : Λ} {b : Binding Λ L (VarRef Λ L)} {body : Statement Λ L}
    (h : easyProcessing seqnum depth allowed inSequence (.letRemote l b body) = .ok s') :
    ∃ body', easyProcessing seqnum depth allowed false body = .ok body' ∧
      s' = .letRemote l b body' := by
  obtain ⟨body', hbody, h⟩ := except_bind_ok h
  simp only [pure, Except.pure, Except.ok.injEq] at h
  exact ⟨body', hbody, h.symm⟩

theorem easyProcessing_ret {l : Λ} {e : VarRef Λ L}
    (h : easyProcessing seqnum depth allowed inSequence (.ret l e) = .ok s') :
    allowed = true ∧ s' = .ret l e := by
  cases allowed with
  | false => simp [easyProcessing] at h
  | true =>
      simp only [easyProcessing, if_true, pure, Except.pure, Except.ok.injEq] at h
      exact ⟨rfl, h.symm⟩

theorem easyProcessing_ifThen {l : Λ} {c : VarRef Λ L} {t e : Statement Λ L}
    (h : easyProcessing seqnum depth allowed inSequence (.ifThen l c t e) = .ok s') :
    ∃ t' e', easyProcessing seqnum depth false false t = .ok t' ∧
      easyProcessing seqnum depth false false e = .ok e' ∧ s' = .ifThen l c t' e' := by
  obtain ⟨t', ht, h⟩ := except_bind_ok h
  obtain ⟨e', he, h⟩ := except_bind_ok h
  simp only [pure, Except.pure, Except.ok.injEq] at h
  exact ⟨t', e', ht, he, h.symm⟩

theorem easyProcessing_whileLoop {l : Λ} {name : VarName} {c : VarRef Λ L} {body : Statement Λ L}
    (h : easyProcessing seqnum depth allowed inSequence (.whileLoop l name c body) = .ok s') :
    ∃ body', easyProcessing seqnum (depth + 1) false false body = .ok body' ∧
      s' = .whileLoop l (.counter seqnum depth) c body' := by
  obtain ⟨body', hbody, h⟩ := except_bind_ok h
  simp only [pure, Except.pure, Except.ok.injEq] at h
  exact ⟨body', hbody, h.symm⟩

theorem easyProcessing_cons {l : Λ} {first rest : Statement Λ L}
    (h : easyProcessing seqnum depth allowed inSequence (.cons l first rest) = .ok s') :
    ∃ s first' rest', easyProcessing s depth allowed false first = .ok first' ∧
      easyProcessing (s + 1) depth allowed true rest = .ok rest' ∧ s' = .cons l first' rest' := by
  obtain ⟨first', hfirst, h⟩ := except_bind_ok h
  refine ⟨if inSequence then seqnum else seqnum + 1, first', ?_⟩
  split at h
  · simp at h
  · obtain ⟨rest', hrest, h⟩ := except_bind_ok h
    simp only [pure, Except.pure, Except.ok.injEq] at h
    exact ⟨rest', hfirst, hrest, h.symm⟩

end Inversion

section Facts

variable {seqnum depth : Nat} {allowed inSequence : Bool} {s s' : Statement Λ L}

/-- Naming keeps typing. -/
theorem easyProcessing_typed [LinearOrder L] [BoundedOrder L] {A : LabelAlgebra Λ L}
    {host : HostTypes L} {binder : Λ → Prop} {env : TypeEnv Λ L}
    (h : easyProcessing seqnum depth allowed inSequence s = .ok s')
    (typed : Typed A host binder env s) : Typed A host binder env s' := by
  induction s generalizing seqnum depth allowed inSequence s' env with
  | letIn l b body ih =>
      obtain ⟨body', hbody, rfl⟩ := easyProcessing_letIn h
      obtain ⟨he, hy, hv, hb, hl, typed⟩ := typed
      exact ⟨he, hy, hv, hb, hl, ih hbody typed⟩
  | letRemote l b body ih =>
      obtain ⟨body', hbody, rfl⟩ := easyProcessing_letRemote h
      obtain ⟨he, hb, handleLabel, ops, hy, hl, typed⟩ := typed
      exact ⟨he, hb, handleLabel, ops, hy, hl, ih hbody typed⟩
  | ret l e => exact (easyProcessing_ret h).2 ▸ typed
  | ifThen l c t e iht ihe =>
      obtain ⟨t', e', ht, he, rfl⟩ := easyProcessing_ifThen h
      obtain ⟨hc, hbool, hl, typedT, typedE⟩ := typed
      exact ⟨hc, hbool, hl, iht ht typedT, ihe he typedE⟩
  | whileLoop l name c body ih =>
      obtain ⟨body', hbody, rfl⟩ := easyProcessing_whileLoop h
      obtain ⟨hc, hbool, hl, typed⟩ := typed
      exact ⟨hc, hbool, hl, ih hbody typed⟩
  | cons l first rest ihf ihr =>
      obtain ⟨_, f', r', hf, hr, rfl⟩ := easyProcessing_cons h
      obtain ⟨hl, typedF, typedR⟩ := typed
      exact ⟨hl, ihf hf typedF, ihr hr typedR⟩
  | _ =>
      simp only [easyProcessing, pure, Except.pure, Except.ok.injEq] at h
      exact h ▸ typed

/-- Naming keeps the flow of operands. -/
theorem easyProcessing_operandsFlow [LinearOrder L] [BoundedOrder L] {s s' : Statement L L}
    (h : easyProcessing seqnum depth allowed inSequence s = .ok s') (operands : s.OperandsFlow) :
    s'.OperandsFlow := by
  induction s generalizing seqnum depth allowed inSequence s' with
  | letIn l b body ih =>
      obtain ⟨body', hbody, rfl⟩ := easyProcessing_letIn h
      exact ⟨operands.1, operands.2.1, ih hbody operands.2.2⟩
  | letRemote l b body ih =>
      obtain ⟨body', hbody, rfl⟩ := easyProcessing_letRemote h
      exact ⟨operands.1, operands.2.1, ih hbody operands.2.2⟩
  | ret l e => exact (easyProcessing_ret h).2 ▸ operands
  | ifThen l c t e iht ihe =>
      obtain ⟨t', e', ht, he, rfl⟩ := easyProcessing_ifThen h
      exact ⟨iht ht operands.1, ihe he operands.2⟩
  | whileLoop l name c body ih =>
      obtain ⟨body', hbody, rfl⟩ := easyProcessing_whileLoop h
      exact show body'.OperandsFlow from ih hbody operands
  | cons l first rest ihf ihr =>
      obtain ⟨_, f', r', hf, hr, rfl⟩ := easyProcessing_cons h
      exact ⟨ihf hf operands.1, ihr hr operands.2⟩
  | _ =>
      simp only [easyProcessing, pure, Except.pure, Except.ok.injEq] at h
      exact h ▸ operands

/-- Naming adds no endorsement. -/
theorem easyProcessing_endorseFree
    (h : easyProcessing seqnum depth allowed inSequence s = .ok s') (free : s.EndorseFree) :
    s'.EndorseFree := by
  induction s generalizing seqnum depth allowed inSequence s' with
  | letIn l b body ih =>
      obtain ⟨body', hbody, rfl⟩ := easyProcessing_letIn h
      exact ⟨free.1, ih hbody free.2⟩
  | letRemote l b body ih =>
      obtain ⟨body', hbody, rfl⟩ := easyProcessing_letRemote h
      exact show body'.EndorseFree from ih hbody free
  | ret l e => exact (easyProcessing_ret h).2 ▸ free
  | ifThen l c t e iht ihe =>
      obtain ⟨t', e', ht, he, rfl⟩ := easyProcessing_ifThen h
      exact ⟨iht ht free.1, ihe he free.2⟩
  | whileLoop l name c body ih =>
      obtain ⟨body', hbody, rfl⟩ := easyProcessing_whileLoop h
      exact show body'.EndorseFree from ih hbody free
  | cons l first rest ihf ihr =>
      obtain ⟨_, f', r', hf, hr, rfl⟩ := easyProcessing_cons h
      exact ⟨ihf hf free.1, ihr hr free.2⟩
  | _ =>
      simp only [easyProcessing, pure, Except.pure, Except.ok.injEq] at h
      exact h ▸ free

end Facts

end MixT.Split
