import Mathlib.Data.List.Pairwise
import MixT.Inference.Accepted

/-! # Inserting tracking

A transaction whose labels track each other gets a tombstone, which it writes at the labels
concerned, and each assignment through a remote variable gets an accompanying write. The
pass goes by the names of remote variables. -/

namespace MixT.Compile

variable {L : Type*}

/-- `tracking_pair`. -/
structure TrackingPair (L : Type*) where
  strong : List L
  weak : List L

section Pass

variable [DecidableEq L] (tracks : L → L → Bool)

/-- `typeset::combine`. -/
def combine (s t : List L) : List L := s ++ t.filter fun l => l ∉ s

/-- `needs_tracking`, where `tracks l1 l2` is `l1::tracks_against<l2>`. -/
def needsTracking (l1 l2 : L) : TrackingPair L :=
  if tracks l1 l2 then ⟨[l2], [l1]⟩
  else if tracks l2 l1 then ⟨[l1], [l2]⟩
  else ⟨[], []⟩

/-- `tracked_labels`. -/
def trackedLabels : List L → TrackingPair L
  | [] => ⟨[], []⟩
  | l1 :: labels =>
      let recr := trackedLabels labels
      ⟨combine (labels.foldl (fun acc l => combine acc (needsTracking tracks l1 l).strong) [])
          recr.strong,
        combine (labels.foldl (fun acc l => combine acc (needsTracking tracks l1 l).weak) [])
          recr.weak⟩

/-- `any_pair_tracks`. -/
def anyPairTracks : List L → Bool
  | [] => false
  | l1 :: labels => labels.any (tracks l1) || anyPairTracks labels

/-- `writes_remote`: an assignment bottoms out at a name of the set. Operations do not
count. -/
def writesRemote (names : List VarName) : Statement L L → Bool
  | .letIn _ _ body => writesRemote names body
  | .letRemote _ b body => writesRemote (b.var :: names) body
  | .ifThen _ _ t e => writesRemote names t || writesRemote names e
  | .whileLoop _ _ _ body => writesRemote names body
  | .assignment _ target _ => target.baseVar ∈ names
  | .cons _ first rest => writesRemote names first || writesRemote names rest
  | _ => false

/-- A statement and the write that accompanies it. -/
def accompanied (l : L) (s : Statement L L) (target : Target L L) : Statement L L :=
  .cons l s (.cons l (.accompanyWrite l target) (.nil l))

/-- `insert_tracking`. -/
def insertTracking (strong : List L) (names : List VarName) : Statement L L → Statement L L
  | .letIn l b body => .letIn l b (insertTracking strong names body)
  | .letRemote l b body => .letRemote l b (insertTracking strong (b.var :: names) body)
  | .ifThen l c t e =>
      .ifThen l c (insertTracking strong names t) (insertTracking strong names e)
  | .whileLoop l name c body => .whileLoop l name c (insertTracking strong names body)
  | .assignment l target e =>
      if l ∈ strong ∧ target.baseVar ∈ names then accompanied l (.assignment l target e) target
      else .assignment l target e
  | .cons l first rest =>
      .cons l (insertTracking strong names first) (insertTracking strong names rest)
  | s => s

variable [Top L]

/-- `write_tombstones`. -/
def writeTombstones : List L → Statement L L
  | [] => .nil ⊤
  | l :: labels =>
      .cons ⊤ (.writeTombstone l ⟨l, .tombstone, Builtin.tombstoneName⟩) (writeTombstones labels)

/-- The tombstone and its writes around a transaction. -/
def withTombstone (labels : List L) (body : Statement L L) : Statement L L :=
  .letIn ⊤ ⟨⊤, .tombstone, Builtin.tombstoneName, ⟨⊤, .tombstone, .generateTombstone⟩⟩
    (.cons ⊤ (writeTombstones labels) (.cons ⊤ body (.nil ⊤)))

end Pass

section Begin

variable [LinearOrder L] [BoundedOrder L] (sorting : Library.ComparisonSort)
  (tracks : L → L → Bool) (mightTrack : L → Bool) (extra : List L)

/-- `collect_proper_labels`. -/
def properLabels (prog : Statement L L) : List L :=
  Inference.collectProperLabels sorting (prog.mapLabel .concrete)

/-- The pair of `make_tracking_choice`, with the labels that a client adds. -/
def extendedTracking (prog : Statement L L) : TrackingPair L :=
  let collected := trackedLabels tracks (properLabels sorting prog ++ extra)
  ⟨combine collected.strong (extra.filter fun l => !mightTrack l),
    combine collected.weak (extra.filter mightTrack)⟩

/-- Whether `insert_tracking_begin` tracks the transaction. -/
def tracksTransaction (prog : Statement L L) : Bool :=
  let labels := properLabels sorting prog ++ extra
  writesRemote [] prog &&
    (anyPairTracks tracks labels || anyPairTracks tracks labels.reverse || !extra.isEmpty)

/-- `insert_tracking_begin`. -/
def insertTrackingBegin (prog : Statement L L) : Statement L L :=
  let sorted := extendedTracking sorting tracks mightTrack extra prog
  if tracksTransaction sorting tracks extra prog then
    withTombstone (combine sorted.weak sorted.strong) (insertTracking sorted.strong [] prog)
  else prog

end Begin

section Untracked

/-- A statement without the nodes of tracking. -/
def Untracked {Λ : Type*} : Statement Λ L → Prop
  | .letIn _ b body => b.expr.form ≠ .generateTombstone ∧ Untracked body
  | .letRemote _ _ body => Untracked body
  | .accompanyWrite _ _ => False
  | .writeTombstone _ _ => False
  | .ifThen _ _ t e => Untracked t ∧ Untracked e
  | .whileLoop _ _ _ body => Untracked body
  | .cons _ first rest => Untracked first ∧ Untracked rest
  | _ => True

/-- Without the accompanying writes. -/
def eraseAccompanied : Statement L L → Statement L L
  | .cons _ first (.cons _ (.accompanyWrite _ _) (.nil _)) => eraseAccompanied first
  | .cons l first rest => .cons l (eraseAccompanied first) (eraseAccompanied rest)
  | .letIn l b body => .letIn l b (eraseAccompanied body)
  | .letRemote l b body => .letRemote l b (eraseAccompanied body)
  | .ifThen l c t e => .ifThen l c (eraseAccompanied t) (eraseAccompanied e)
  | .whileLoop l name c body => .whileLoop l name c (eraseAccompanied body)
  | s => s

/-- Without the tombstone and without the accompanying writes. -/
def eraseTracking : Statement L L → Statement L L
  | .letIn _ ⟨_, _, _, ⟨_, _, .generateTombstone⟩⟩ (.cons _ _ (.cons _ body (.nil _))) =>
      eraseAccompanied body
  | s => eraseAccompanied s

theorem typecheckExpr_untracked [LinearOrder L] [BoundedOrder L] {host : HostTypes L}
    {lookup : Lookup (Label L) L} {env : TypeEnv (Label L) L} {e : Parsed.Expr L}
    {r : Expression (Label L) L} (h : typecheckExpr host lookup env e = some r) :
    r.form ≠ .generateTombstone := by
  cases e <;>
    simp only [typecheckExpr, Option.bind_eq_bind, Option.bind_eq_some_iff, Option.pure_def,
      Option.some.injEq] at h
  case constant i => simp [← h]
  case varReference x => obtain ⟨r, -, rfl⟩ := h; simp
  case fieldReference x f => obtain ⟨r, -, t, -, rfl⟩ := h; simp
  case binOp op l r => obtain ⟨x, -, y, -, t, -, rfl⟩ := h; simp
  case isValid x => obtain ⟨r, -, t, -, rfl⟩ := h; simp
  case endorse l x => obtain ⟨r, -, rfl⟩ := h; simp
  case ensure l x => obtain ⟨r, -, rfl⟩ := h; simp
  case operation name x args => obtain ⟨r, -, rfl⟩ := h; simp

/-- Type checking makes no node of tracking. -/
theorem typecheck_untracked [LinearOrder L] [BoundedOrder L] {host : HostTypes L}
    {lookup : Lookup (Label L) L} {seqnum depth : Int} {env : TypeEnv (Label L) L}
    {s : Parsed.Stmt L} {ast : Statement (Label L) L}
    (h : typecheck host lookup seqnum depth env s = some ast) : Untracked ast := by
  induction s generalizing seqnum depth env ast with
  | letIn x e body ih =>
      simp only [typecheck, Option.bind_eq_bind, Option.bind_eq_some_iff] at h
      obtain ⟨bound, hbound, h⟩ := h
      split at h
      · simp at h
      · obtain ⟨body', hbody, h⟩ := Option.bind_eq_some_iff.mp h
        simp only [Option.pure_def, Option.some.injEq] at h
        exact h ▸ ⟨typecheckExpr_untracked hbound, ih hbody⟩
  | letRemote x p body ih =>
      simp only [typecheck, Option.bind_eq_bind, Option.bind_eq_some_iff] at h
      obtain ⟨bound, hbound, h⟩ := h
      split at h
      · obtain ⟨body', hbody, h⟩ := Option.bind_eq_some_iff.mp h
        simp only [Option.pure_def, Option.some.injEq] at h
        exact h ▸ (ih hbody : Untracked body')
      · simp at h
  | operation name x args =>
      simp only [typecheck, Option.bind_eq_bind, Option.bind_eq_some_iff] at h
      obtain ⟨r, -, h⟩ := h
      simp only [Option.pure_def, Option.some.injEq] at h
      exact h ▸ trivial
  | assignment target e =>
      simp only [typecheck, Option.bind_eq_bind, Option.bind_eq_some_iff] at h
      obtain ⟨t, -, e, -, h⟩ := h
      split at h
      · simp only [Option.pure_def, Option.some.injEq] at h
        exact h ▸ trivial
      · simp at h
  | ret e =>
      simp only [typecheck, Option.bind_eq_bind, Option.bind_eq_some_iff] at h
      obtain ⟨e, -, h⟩ := h
      simp only [Option.pure_def, Option.some.injEq] at h
      exact h ▸ trivial
  | ifThen c t e iht ihe =>
      simp only [typecheck, Option.bind_eq_bind, Option.bind_eq_some_iff] at h
      obtain ⟨c, -, h⟩ := h
      split at h
      · simp only [Option.bind_eq_some_iff] at h
        obtain ⟨t', ht, e', he, h⟩ := h
        simp only [Option.pure_def, Option.some.injEq] at h
        exact h ▸ ⟨iht ht, ihe he⟩
      · simp at h
  | whileLoop c body ih =>
      simp only [typecheck, Option.bind_eq_bind, Option.bind_eq_some_iff] at h
      obtain ⟨c, -, h⟩ := h
      split at h
      · simp only [Option.bind_eq_some_iff] at h
        obtain ⟨body', hbody, h⟩ := h
        simp only [Option.pure_def, Option.some.injEq] at h
        exact h ▸ (ih hbody : Untracked body')
      · simp at h
  | nil =>
      simp only [typecheck, Option.pure_def, Option.some.injEq] at h
      exact h ▸ trivial
  | cons first rest ihf ihr =>
      simp only [typecheck, Option.bind_eq_bind, Option.bind_eq_some_iff] at h
      obtain ⟨f, hf, r, hr, h⟩ := h
      simp only [Option.pure_def, Option.some.injEq] at h
      exact h ▸ ⟨ihf hf, ihr hr⟩

theorem untracked_mapLabel {Λ Λ' : Type*} (f : Λ → Λ') {s : Statement Λ L} :
    Untracked (s.mapLabel f) ↔ Untracked s := by
  induction s with
  | letIn l b body ih =>
      have form : (b.expr.mapLabel f).form = .generateTombstone ↔
          b.expr.form = .generateTombstone := by
        cases hform : b.expr.form <;> simp [Expression.mapLabel, hform, Form.mapLabel]
      simp [Statement.mapLabel, Untracked, ih, form]
  | _ => simp_all [Statement.mapLabel, Untracked]

/-- An accepted program has no node of tracking. -/
theorem untracked_of_accepted [LinearOrder L] [BoundedOrder L] {sorting : Library.ComparisonSort}
    {host : HostTypes L} {lookup : Lookup (Label L) L} {inputs : List (VarName × Ty L)}
    {body : Parsed.Stmt L} {prog : Statement L L}
    (h : Inference.Accepted sorting host lookup inputs body prog) : Untracked prog := by
  obtain ⟨ast, hast, hinferred⟩ := h
  have typed := typecheck_typed hast
  obtain ⟨substitutions, out⟩ :=
    (Inference.inferLabels_outcome sorting (Inference.transactionEnv_concrete inputs) typed).2 _ hinferred
  rw [← untracked_mapLabel (.concrete : L → Label L), out.inferred_eq]
  simp only [untracked_mapLabel]
  exact typecheck_untracked hast

end Untracked

section Erase

variable [DecidableEq L] {strong : List L} {names : List VarName}

/-- Tracking puts an accompanying write behind a statement of its own only. -/
theorem insertTracking_ne_accompanyWrite {s rest : Statement L L}
    {l m : L} {target : Target L L} (h : Untracked s) :
    insertTracking strong names s ≠ .cons l (.accompanyWrite m target) rest := by
  intro heq
  cases s with
  | assignment m t e =>
      simp only [insertTracking] at heq
      split at heq <;> simp [accompanied] at heq
  | cons m first rest =>
      simp only [insertTracking, Statement.cons.injEq] at heq
      cases first with
      | assignment m t e =>
          simp only [insertTracking] at heq
          split at heq <;> simp [accompanied] at heq
      | accompanyWrite m t => exact h.1
      | _ => simp [insertTracking] at heq
  | _ => simp [insertTracking] at heq

/-- The accompanying writes of tracking can be erased. -/
theorem eraseAccompanied_insertTracking (strong : List L) (names : List VarName)
    {s : Statement L L} (h : Untracked s) :
    eraseAccompanied (insertTracking strong names s) = s := by
  induction s generalizing names with
  | letIn l b body ih => simp [insertTracking, eraseAccompanied, ih _ h.2]
  | letRemote l b body ih => simp [insertTracking, eraseAccompanied, ih _ (h : Untracked body)]
  | assignment l t e =>
      unfold insertTracking
      split <;> rfl
  | ifThen l c t e iht ihe => simp [insertTracking, eraseAccompanied, iht _ h.1, ihe _ h.2]
  | whileLoop l name c body ih =>
      simp [insertTracking, eraseAccompanied, ih _ (h : Untracked body)]
  | cons l first rest ihf ihr =>
      rw [insertTracking, eraseAccompanied, ihf _ h.1, ihr _ h.2]
      exact fun _ _ _ _ heq => insertTracking_ne_accompanyWrite h.2 heq
  | _ => rfl

theorem insertTracking_none (names : List VarName) (s : Statement L L) :
    insertTracking ([] : List L) names s = s := by
  induction s generalizing names with
  | _ => simp_all [insertTracking]

/-- Without an assignment to a name of the set, tracking changes nothing. -/
theorem insertTracking_eq_of_not_writes {s : Statement L L}
    (h : writesRemote names s = false) : insertTracking strong names s = s := by
  induction s generalizing names with
  | assignment l t e =>
      have unwritten : t.baseVar ∉ names := by simpa [writesRemote] using h
      simp [insertTracking, unwritten]
  | _ => simp_all [insertTracking, writesRemote]

end Erase

section Writes

variable [DecidableEq L] [Bot L]

/-- Lexical scope, the innermost binding first: a remote variable has the label of its
handle. -/
abbrev Scope (L : Type*) := List (VarName × Option L)

/-- The innermost binding of the name is to a remote variable on a handle of the label. -/
def ResolvesTo (scope : Scope L) (x : VarName) (l : L) : Prop :=
  (scope.find? fun d => d.1 = x).bind Prod.snd = some l

/-- The innermost binding of the name is not to a remote variable. -/
def ResolvesLocally (scope : Scope L) (x : VarName) : Prop :=
  (scope.find? fun d => d.1 = x).bind Prod.snd = none

variable (strong : List L) (mutates : OperName → Bool)

/-- The operation writes an object of a label in `strong`. -/
def OperationWrites (name : OperName) (h : VarRef L L) : Prop :=
  mutates name = true ∧ ∃ l ∈ strong, h.yield.label = some l

/-- The operation of a let, if it has one that writes such an object: its handle. -/
def LetWrites (b : Binding L L (Expression L L)) (h : VarRef L L) : Prop :=
  ∃ name args, b.expr.form = .operation name h args ∧ OperationWrites strong mutates name h

/-- In `out`, each statement of `s` that writes an object of a label in `strong` is followed
by an accompanying write of the object, assignments to local variables are not, and the
rest is as in `s`. -/
def Accompanies : Scope L → Statement L L → Statement L L → Prop
  | scope, .letIn l b body, out =>
      ∃ body', Accompanies ((b.var, none) :: scope) body body' ∧
        ((∃ h, LetWrites strong mutates b h ∧
            out = .letIn l b (.cons l (.accompanyWrite l (.var h)) (.cons l body' (.nil l)))) ∨
          (∀ h, ¬ LetWrites strong mutates b h) ∧ out = .letIn l b body')
  | scope, .letRemote l b body, out =>
      ∃ body', Accompanies ((b.var, b.expr.yield.label) :: scope) body body' ∧
        out = .letRemote l b body'
  | _, .operation l name h args, out =>
      (OperationWrites strong mutates name h ∧
          out = accompanied l (.operation l name h args) (.var h)) ∨
        ¬ OperationWrites strong mutates name h ∧ out = .operation l name h args
  | scope, .assignment l target e, out =>
      (out = accompanied l (.assignment l target e) target ∧ ¬ ResolvesLocally scope target.baseVar) ∨
        out = .assignment l target e ∧ ∀ m ∈ strong, ¬ ResolvesTo scope target.baseVar m
  | scope, .ifThen l c t e, out =>
      ∃ t' e', Accompanies scope t t' ∧ Accompanies scope e e' ∧ out = .ifThen l c t' e'
  | scope, .whileLoop l name c body, out =>
      ∃ body', Accompanies scope body body' ∧ out = .whileLoop l name c body'
  | scope, .cons l first rest, out =>
      ∃ f' r', Accompanies scope first f' ∧ Accompanies scope rest r' ∧ out = .cons l f' r'
  | _, s, out => out = s

/-- The program has a statement that writes an object of a label in `strong`. -/
def Writes : Scope L → Statement L L → Prop
  | scope, .letIn _ b body =>
      (∃ h, LetWrites strong mutates b h) ∨ Writes ((b.var, none) :: scope) body
  | scope, .letRemote _ b body => Writes ((b.var, b.expr.yield.label) :: scope) body
  | _, .operation _ name h _ => OperationWrites strong mutates name h
  | scope, .assignment _ target _ => ∃ m ∈ strong, ResolvesTo scope target.baseVar m
  | scope, .ifThen _ _ t e => Writes scope t ∨ Writes scope e
  | scope, .whileLoop _ _ _ body => Writes scope body
  | scope, .cons _ first rest => Writes scope first ∨ Writes scope rest
  | _, _ => False

/-- No operation writes an object of a label in `strong`, each assignment to such an object
has a label in `strong`, and no assignment with a label in `strong` is to a local variable
with the name of a remote variable around it. -/
def Traceable : Scope L → List VarName → Statement L L → Prop
  | scope, names, .letIn _ b body =>
      (∀ h, ¬ LetWrites strong mutates b h) ∧ Traceable ((b.var, none) :: scope) names body
  | scope, names, .letRemote _ b body =>
      Traceable ((b.var, b.expr.yield.label) :: scope) (b.var :: names) body
  | _, _, .operation _ name h _ => ¬ OperationWrites strong mutates name h
  | scope, names, .assignment l target _ =>
      (l ∉ strong → ∀ m ∈ strong, ¬ ResolvesTo scope target.baseVar m) ∧
        (l ∈ strong → target.baseVar ∈ names → ¬ ResolvesLocally scope target.baseVar)
  | scope, names, .ifThen _ _ t e => Traceable scope names t ∧ Traceable scope names e
  | scope, names, .whileLoop _ _ _ body => Traceable scope names body
  | scope, names, .cons _ first rest => Traceable scope names first ∧ Traceable scope names rest
  | _, _, _ => True

/-- The remote variables of a scope have their names in the set. -/
def Named (scope : Scope L) (names : List VarName) : Prop :=
  ∀ x l, (x, some l) ∈ scope → x ∈ names

variable {strong mutates}

omit [DecidableEq L] [Bot L] in
theorem ResolvesTo.named {scope : Scope L} {names : List VarName} {x : VarName} {l : L}
    (h : ResolvesTo scope x l) (named : Named scope names) : x ∈ names := by
  obtain ⟨⟨y, m⟩, hfind, rfl⟩ := Option.bind_eq_some_iff.mp h
  obtain rfl : y = x := by simpa using List.find?_some hfind
  exact named y l (List.mem_of_find?_eq_some hfind)

omit [DecidableEq L] [Bot L] in
theorem Named.local {scope : Scope L} {names : List VarName} (named : Named scope names)
    (x : VarName) : Named ((x, none) :: scope) names := by
  intro y l hy
  obtain h | h := List.mem_cons.mp hy
  · simp at h
  · exact named y l h

omit [DecidableEq L] [Bot L] in
theorem Named.remote {scope : Scope L} {names : List VarName} (named : Named scope names)
    (x : VarName) (m : Option L) : Named ((x, m) :: scope) (x :: names) := by
  intro y l hy
  obtain h | h := List.mem_cons.mp hy
  · obtain ⟨rfl, -⟩ := Prod.mk.inj h
    exact List.mem_cons_self ..
  · exact List.mem_cons_of_mem _ (named y l h)

/-- The pass puts the accompanying writes where they belong exactly in a traceable
program. -/
theorem insertTracking_accompanies_iff {scope : Scope L} {names : List VarName}
    {s : Statement L L} (h : Untracked s) (named : Named scope names) :
    Accompanies strong mutates scope s (insertTracking strong names s) ↔
      Traceable strong mutates scope names s := by
  induction s generalizing scope names with
  | letIn l b body ih =>
      have body_iff := ih h.2 (named.local b.var)
      simp only [Accompanies, Traceable, insertTracking, Statement.letIn.injEq, true_and]
      constructor
      · rintro ⟨body', hbody, ⟨hd, -, heq⟩ | ⟨nothing, rfl⟩⟩
        · exact absurd heq (insertTracking_ne_accompanyWrite h.2)
        · exact ⟨nothing, body_iff.mp hbody⟩
      · rintro ⟨nothing, hbody⟩
        exact ⟨_, body_iff.mpr hbody, Or.inr ⟨nothing, rfl⟩⟩
  | letRemote l b body ih =>
      have body_iff := ih (h : Untracked body) (named.remote b.var b.expr.yield.label)
      simp only [Accompanies, Traceable, insertTracking, Statement.letRemote.injEq, true_and]
      constructor
      · rintro ⟨body', hbody, rfl⟩
        exact body_iff.mp hbody
      · exact fun hbody => ⟨_, body_iff.mpr hbody, rfl⟩
  | operation l name hd args => simp [Accompanies, Traceable, insertTracking, accompanied]
  | assignment l target e =>
      by_cases inserted : l ∈ strong ∧ target.baseVar ∈ names
      · simp [Accompanies, Traceable, insertTracking, inserted, accompanied]
      · have plain : insertTracking strong names (.assignment l target e) =
            .assignment l target e := by simp [insertTracking, inserted]
        rw [plain]
        simp only [Accompanies, Traceable, accompanied, reduceCtorEq, false_and, false_or,
          true_and]
        constructor
        · exact fun unresolved => ⟨fun _ => unresolved, fun hl hn => absurd ⟨hl, hn⟩ inserted⟩
        · rintro ⟨unresolved, -⟩ m hm resolves
          by_cases hl : l ∈ strong
          · exact inserted ⟨hl, resolves.named named⟩
          · exact unresolved hl m hm resolves
  | ifThen l c t e iht ihe =>
      simp only [Accompanies, Traceable, insertTracking, Statement.ifThen.injEq, true_and,
        ← iht h.1 named, ← ihe h.2 named]
      constructor
      · rintro ⟨t', e', ht, he, rfl, rfl⟩
        exact ⟨ht, he⟩
      · exact fun ⟨ht, he⟩ => ⟨_, _, ht, he, rfl, rfl⟩
  | whileLoop l name c body ih =>
      simp only [Accompanies, Traceable, insertTracking, Statement.whileLoop.injEq, true_and,
        ← ih (h : Untracked body) named]
      constructor
      · rintro ⟨body', hbody, rfl⟩
        exact hbody
      · exact fun hbody => ⟨_, hbody, rfl⟩
  | cons l first rest ihf ihr =>
      simp only [Accompanies, Traceable, insertTracking, Statement.cons.injEq, true_and,
        ← ihf h.1 named, ← ihr h.2 named]
      constructor
      · rintro ⟨f', r', hf, hr, rfl, rfl⟩
        exact ⟨hf, hr⟩
      · exact fun ⟨hf, hr⟩ => ⟨_, _, hf, hr, rfl, rfl⟩
  | _ => simp [Accompanies, Traceable, insertTracking]

/-- A traceable program that writes a strong object assigns to a remote name. -/
theorem writesRemote_of_traceable {scope : Scope L} {names : List VarName} {s : Statement L L}
    (named : Named scope names) (traceable : Traceable strong mutates scope names s)
    (writes : Writes strong mutates scope s) : writesRemote names s = true := by
  induction s generalizing scope names with
  | letIn l b body ih =>
      obtain ⟨hd, hw⟩ | writes := writes
      · exact absurd hw (traceable.1 hd)
      · exact ih (named.local b.var) traceable.2 writes
  | letRemote l b body ih => exact ih (named.remote b.var _) traceable writes
  | operation l name hd args => exact absurd writes traceable
  | assignment l target e =>
      obtain ⟨m, -, resolves⟩ := writes
      simpa [writesRemote] using resolves.named named
  | ifThen l c t e iht ihe =>
      simp only [writesRemote, Bool.or_eq_true]
      exact writes.imp (iht named traceable.1) (ihe named traceable.2)
  | whileLoop l name c body ih => exact ih named traceable writes
  | cons l first rest ihf ihr =>
      simp only [writesRemote, Bool.or_eq_true]
      exact writes.imp (ihf named traceable.1) (ihr named traceable.2)
  | _ => exact absurd writes id

end Writes

section Pairs

variable {tracks : L → L → Bool}

theorem anyPairTracks_eq_false {labels : List L} :
    anyPairTracks tracks labels = false ↔ labels.Pairwise fun a b => tracks a b = false := by
  induction labels with
  | nil => simp [anyPairTracks]
  | cons l labels ih => simp [anyPairTracks, ih]

/-- The test over both orders of the labels finds every pair that tracks. -/
theorem anyPairTracks_of_pair {labels : List L} {a b : L} (ha : a ∈ labels) (hb : b ∈ labels)
    (hne : a ≠ b) (h : tracks a b = true) :
    (anyPairTracks tracks labels || anyPairTracks tracks labels.reverse) = true := by
  by_contra none
  simp only [Bool.or_eq_true, not_or, Bool.not_eq_true, anyPairTracks_eq_false,
    List.pairwise_reverse] at none
  have both : labels.Pairwise fun a b => tracks a b = false ∧ tracks b a = false :=
    none.1.and none.2
  have : Std.Symm fun a b => tracks a b = false ∧ tracks b a = false := ⟨fun _ _ => And.symm⟩
  have untracked := both.forall ha hb hne
  simp [h] at untracked

theorem needsTracking_strong_eq_nil [DecidableEq L] {a b : L} (hab : tracks a b = false)
    (hba : tracks b a = false) : (needsTracking tracks a b).strong = [] := by
  simp [needsTracking, hab, hba]

/-- Without a pair that tracks, no label is a tracked strong one. -/
theorem trackedLabels_strong_eq_nil [DecidableEq L] {labels : List L}
    (h : (anyPairTracks tracks labels || anyPairTracks tracks labels.reverse) = false) :
    (trackedLabels tracks labels).strong = [] := by
  simp only [Bool.or_eq_false_iff, anyPairTracks_eq_false, List.pairwise_reverse] at h
  obtain ⟨forward, backward⟩ := h
  induction labels with
  | nil => rfl
  | cons l labels ih =>
      rw [List.pairwise_cons] at forward backward
      have untracked : ∀ m ∈ labels, (needsTracking tracks l m).strong = [] :=
        fun m hm => needsTracking_strong_eq_nil (forward.1 m hm) (backward.1 m hm)
      have first : labels.foldl (fun acc m => combine acc (needsTracking tracks l m).strong) [] =
          labels.foldl (fun acc _ => acc) [] :=
        List.foldl_ext _ _ [] fun acc m hm => by simp [untracked m hm, combine]
      rw [List.foldl_fixed labels] at first
      simp only [trackedLabels, ih forward.2 backward.2, first]
      rfl

end Pairs

section Conservative

variable [LinearOrder L] [BoundedOrder L] (sorting : Library.ComparisonSort)
  (tracks : L → L → Bool) (mightTrack : L → Bool) (extra : List L) (mutates : OperName → Bool)

/-- The pass only adds what can be erased, puts an accompanying write behind each write of
a strong object and behind no assignment to a local variable, and tracks whenever there
is such a write and a pair of labels that tracks. -/
structure TracksConservatively (prog : Statement L L) : Prop where
  erases : eraseTracking (insertTrackingBegin sorting tracks mightTrack extra prog) = prog
  accompanies : ∃ body,
    (insertTrackingBegin sorting tracks mightTrack extra prog = body ∨
      ∃ labels, insertTrackingBegin sorting tracks mightTrack extra prog =
        withTombstone labels body) ∧
    Accompanies (extendedTracking sorting tracks mightTrack extra prog).strong mutates [] prog body
  inserts : Writes (extendedTracking sorting tracks mightTrack extra prog).strong mutates [] prog →
    (∃ a ∈ properLabels sorting prog, ∃ b ∈ properLabels sorting prog, a ≠ b ∧ tracks a b = true) →
    ∃ labels body, insertTrackingBegin sorting tracks mightTrack extra prog =
      withTombstone labels body

variable {sorting tracks mightTrack extra mutates} {host : HostTypes L}
  {lookup : Lookup (Label L) L} {inputs : List (VarName × Ty L)} {body : Parsed.Stmt L}
  {prog : Statement L L}

theorem insertTrackingBegin_tracked (mightTrack : L → Bool)
    (h : tracksTransaction sorting tracks extra prog = true) :
    ∃ labels, insertTrackingBegin sorting tracks mightTrack extra prog =
      withTombstone labels
        (insertTracking (extendedTracking sorting tracks mightTrack extra prog).strong [] prog) :=
  ⟨_, by simp only [insertTrackingBegin, h, if_true]; rfl⟩

/-- Where the pass does nothing, the traversal would do nothing either. -/
theorem insertTrackingBegin_untracked (mightTrack : L → Bool)
    (h : tracksTransaction sorting tracks extra prog = false) :
    insertTrackingBegin sorting tracks mightTrack extra prog = prog ∧
      insertTracking (extendedTracking sorting tracks mightTrack extra prog).strong [] prog =
        prog := by
  refine ⟨by simp [insertTrackingBegin, h], ?_⟩
  rw [tracksTransaction, Bool.and_eq_false_iff] at h
  obtain unwritten | h := h
  · exact insertTracking_eq_of_not_writes unwritten
  · obtain ⟨nopair, noextra⟩ := Bool.or_eq_false_iff.mp h
    obtain rfl : extra = [] := by simpa using noextra
    have none : (extendedTracking sorting tracks mightTrack [] prog).strong = [] := by
      simp only [extendedTracking, trackedLabels_strong_eq_nil nopair]
      rfl
    rw [none, insertTracking_none]

theorem withTombstone_untracked {labels : List L} {s t : Statement L L} (h : Untracked s) :
    s ≠ withTombstone labels t := by
  rintro rfl
  exact h.1 rfl

theorem accompanies_withTombstone {strong labels : List L} {scope : Scope L}
    {s t : Statement L L} (h : Untracked s) :
    ¬ Accompanies strong mutates scope s (withTombstone labels t) := by
  intro accompanies
  cases s with
  | letIn l b body =>
      simp only [Accompanies, withTombstone, Statement.letIn.injEq] at accompanies
      obtain ⟨body', -, ⟨hd, -, -, rfl, -⟩ | ⟨-, -, rfl, -⟩⟩ := accompanies
      · exact h.1 rfl
      · exact h.1 rfl
  | _ => simp [Accompanies, withTombstone, accompanied] at accompanies

/-- The pass can be erased. -/
theorem eraseTracking_insertTrackingBegin (h : Untracked prog) :
    eraseTracking (insertTrackingBegin sorting tracks mightTrack extra prog) = prog := by
  cases tracked : tracksTransaction sorting tracks extra prog with
  | true =>
      obtain ⟨labels, eq⟩ := insertTrackingBegin_tracked mightTrack tracked
      rw [eq]
      exact eraseAccompanied_insertTracking _ _ h
  | false =>
      rw [(insertTrackingBegin_untracked mightTrack tracked).1]
      have erased : eraseAccompanied prog = prog := by
        simpa [insertTracking_none] using
          eraseAccompanied_insertTracking ([] : List L) [] h
      unfold eraseTracking
      split
      · exact absurd rfl h.1
      · exact erased

end Conservative

section FourLabels

open Inference

def increment : OperName := ['i', 'n', 'c', 'r', 'e', 'm', 'e', 'n', 't']

/-- A host whose handles have operations without a result. -/
def operationsHost : HostTypes FourLabels :=
  ⟨fun _ _ => none, fun _ _ _ => none, fun _ _ _ => some .void⟩

def strongHandle : Ty FourLabels := .handle strong .int [increment]

/-- A causal handle `q` and a strong handle `h`. -/
def twoHandles : List (VarName × Ty FourLabels) :=
  [(qName, .handle causal .int []), (hName, strongHandle)]

def causalTracksStrong (l1 l2 : FourLabels) : Bool := l1 = causal && l2 = strong

/-- `remote x = h, remote z = q, { x = x, z = x }`. -/
def assignBoth : Parsed.Stmt FourLabels :=
  .letRemote xName hName <| .letRemote zName qName <|
    .cons (.assignment (.var xName) xName) (.cons (.assignment (.var zName) xName) .nil)

def assignBothInferred : Statement FourLabels FourLabels :=
  .letRemote strong ⟨strong, .int, xName, ⟨⊤, strongHandle, hName⟩⟩ <|
    .letRemote causal ⟨causal, .int, zName, ⟨⊤, .handle causal .int [], qName⟩⟩ <|
      .cons ⊤ (.assignment strong (.var ⟨strong, .int, xName⟩) ⟨strong, .int, xName⟩) <|
        .cons ⊤ (.assignment causal (.var ⟨causal, .int, zName⟩) ⟨strong, .int, xName⟩) (.nil ⊤)

theorem assignBoth_accepted :
    Accepted .insertion operationsHost (Lookup.first _ _) twoHandles assignBoth
      assignBothInferred :=
  ⟨_, rfl, by decide⟩

/-- `remote z = q, h.increment()`. -/
def incrementStrong : Parsed.Stmt FourLabels :=
  .letRemote zName qName (.cons (.operation increment hName []) .nil)

def incrementStrongInferred : Statement FourLabels FourLabels :=
  .letRemote causal ⟨causal, .int, zName, ⟨⊤, .handle causal .int [], qName⟩⟩ <|
    .cons ⊤ (.operation strong increment ⟨⊤, strongHandle, hName⟩ []) (.nil ⊤)

end FourLabels

end MixT.Compile
