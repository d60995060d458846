import MixT.Tracking.Protocol

/-! # Causal order across clients

A strong read of an object that a tracked transaction wrote should report the
tombstone of that transaction. The contexts of the phases collect these
tombstones, and the replies carry what the session's tracker holds. -/

namespace MixT.Tracking.Protocol

open Library.Runs

variable {C : Type*}

/-- A strong phase of `c₂` reads `o` after a tracked write of `c₁` with tombstone
`n` committed, with no tracked write to `o` committed in between. `tombs` is what
the phase reports, and `after` is the rest of the history. -/
def CrossRead (h : List (Event C)) (c₁ c₂ : C) (n : Tombstone) (o : Name)
    (tombs : List Tombstone) (after : List (Event C)) : Prop :=
  ∃ before between rest accompanied,
    h = before ++ .committed c₁ .strong accompanied :: between ++
      .read c₂ .strong o :: rest ++ .reported c₂ .strong tombs :: after ∧
    c₁ ≠ c₂ ∧ (o, n) ∈ accompanied ∧
    (∀ c writes m, .committed c .strong writes ∈ between → (o, m) ∉ writes) ∧
    (∀ level ts, .reported c₂ level ts ∉ rest) ∧ ∀ level, .failed c₂ level ∉ rest

/-- The report names `n`, the next causal request of `c₂` carries it, and the
causal server starts that request only where `n` exists. -/
def TrackedAfter (c₂ : C) (n : Tombstone) (tombs : List Tombstone)
    (after : List (Event C)) : Prop :=
  n ∈ tombs ∧
  (∀ pre obligations post, after = pre ++ .sent c₂ .causal obligations :: post →
    (∀ earlier, .sent c₂ .causal earlier ∉ pre) → n ∈ obligations) ∧
  ∀ pre names post, after = pre ++ .started c₂ .causal names :: post →
    (∀ earlier, .started c₂ .causal earlier ∉ pre) → n.name ∈ names

variable [DecidableEq C]

/-- Every cross-client read of every run is tracked. -/
def CausalOrderTracked (C : Type*) [DecidableEq C] : Prop :=
  ∀ (acts : List (Action C)) (s : System C) (c₁ c₂ : C) (n : Tombstone) (o : Name)
    (tombs : List Tombstone) (after : List (Event C)),
    run System.step System.init acts = some s →
    CrossRead s.history c₁ c₂ n o tombs after → TrackedAfter c₂ n tombs after

namespace System

/-- What a step changes in the sessions and in the reports: a reply carries the
tombstones its session's tracker has encountered, and no step adds to them. -/
theorem step_cases {s s' : System C} {a : Action C} (h : step s a = some s') :
    (s'.sessions = s.sessions ∧ ∃ added : List (Event C), s'.history = s.history ++ added ∧
      ∀ c level tombs, .reported c level tombs ∉ added) ∨
    ∃ c phase now merged, s' = s.reply c phase now merged := by
  cases a with
  | begin c nonce tracked strong causal =>
      simp only [step] at h
      split at h
      · cases h
        exact .inl ⟨rfl, [], by simp [setClient], by simp⟩
      · cases h
  | send c =>
      simp only [step] at h
      split at h
      · cases h
        refine .inl ⟨rfl, [.sent c _ _], rfl, by simp⟩
      · cases h
  | findTombstone c =>
      simp only [step] at h
      split at h
      · split at h
        · split at h
          · cases h
            exact .inl ⟨rfl, [], by simp [setRequest], by simp⟩
          · cases h
        · cases h
      · cases h
  | start c =>
      simp only [step] at h
      split at h
      · split at h
        · cases h
          exact .inl ⟨rfl, [.started c _ _], rfl, by simp⟩
        · cases h
      · cases h
  | effect c =>
      simp only [step] at h
      split at h
      · split at h
        · rename_i phase _ _ effect rest _ _
          obtain ⟨phase', -, rfl⟩ := Option.map_eq_some_iff.mp h
          cases effect.reads with
          | none => exact .inl ⟨rfl, [], by simp [setRequest], by simp⟩
          | some name => exact .inl ⟨rfl, [.read c phase'.level name], rfl, by simp⟩
        · cases h
      · cases h
  | retry c =>
      simp only [step] at h
      split at h
      · split at h
        · cases h
          exact .inl ⟨rfl, [], by simp [setRequest], by simp⟩
        · cases h
      · cases h
  | commit c now merged =>
      simp only [step] at h
      split at h
      · split at h
        · cases h
          exact .inr ⟨c, _, now, merged, rfl⟩
        · cases h
      · cases h
  | fail c =>
      simp only [step] at h
      split at h
      · cases h
        exact .inl ⟨rfl, [.failed c _], rfl, by simp⟩
      · cases h

/-- No session has encountered a tombstone, and no report names one. -/
structure NothingReported (s : System C) : Prop where
  encountered : ∀ c level, (s.sessions c level).encounteredTombstones = []
  reports : ∀ c level tombs, .reported c level tombs ∈ s.history → tombs = []

omit [DecidableEq C] in
theorem nothingReported_init : NothingReported (init : System C) :=
  ⟨fun _ _ => rfl, by simp [init]⟩

/-- A reply leaves what the tracker has encountered as it was: the pending
nonces of the phase are dropped with its context. -/
theorem nothingReported_reply {s : System C} (h : s.NothingReported) (c : C)
    (phase : OpenPhase) (now : Clock) (merged : Bool) :
    (s.reply c phase now merged).NothingReported := by
  have hempty : ((s.sessions c phase.level).updateClock now).encounteredTombstones = [] :=
    h.encountered c phase.level
  constructor
  · intro d level
    by_cases hd : d = c
    · subst hd
      by_cases hl : level = phase.level
      · subst hl
        simpa [reply, setSession, setRequest, setClient, record, commitWrites] using hempty
      · simpa [reply, setSession, setRequest, setClient, record, commitWrites, hl] using
          h.encountered d level
    · simpa [reply, setSession, setRequest, setClient, record, commitWrites, hd] using
        h.encountered d level
  · intro d level tombs hmem
    simp only [reply, record, setClient, setRequest, setSession, commitWrites, hempty,
      List.mem_append, List.mem_singleton, Event.reported.injEq, reduceCtorEq, or_false] at hmem
    rcases hmem with hold | ⟨-, -, rfl⟩
    · exact h.reports d level tombs hold
    · rfl

theorem nothingReported_step {s s' : System C} {a : Action C} (hstep : step s a = some s')
    (h : s.NothingReported) : s'.NothingReported := by
  obtain ⟨hsessions, added, hhistory, hnone⟩ | ⟨c, phase, now, merged, rfl⟩ := step_cases hstep
  · constructor
    · intro c level
      rw [hsessions]
      exact h.encountered c level
    · intro c level tombs hmem
      rw [hhistory, List.mem_append] at hmem
      rcases hmem with hold | hnew
      · exact h.reports c level tombs hold
      · exact absurd hnew (hnone c level tombs)
  · exact nothingReported_reply h c phase now merged

/-- Every report of every run is empty. -/
theorem reports_empty {s : System C} {acts : List (Action C)}
    (hrun : run step init acts = some s) {c : C} {level : Level} {tombs : List Tombstone}
    (hmem : .reported c level tombs ∈ s.history) : tombs = [] :=
  (visits_invariant NothingReported nothingReported_init
    (fun _ _ _ => nothingReported_step) (visits_end hrun)).reports c level tombs hmem

end System

omit [DecidableEq C] in
theorem CrossRead.reported_mem {h : List (Event C)} {c₁ c₂ : C} {n : Tombstone} {o : Name}
    {tombs : List Tombstone} {after : List (Event C)}
    (read : CrossRead h c₁ c₂ n o tombs after) : .reported c₂ .strong tombs ∈ h := by
  obtain ⟨before, between, rest, accompanied, rfl, -⟩ := read
  simp

/-- No cross-client read of any run is tracked. -/
theorem crossRead_not_tracked {acts : List (Action C)} {s : System C}
    (hrun : run System.step System.init acts = some s) {c₁ c₂ : C} {n : Tombstone} {o : Name}
    {tombs : List Tombstone} {after : List (Event C)}
    (read : CrossRead s.history c₁ c₂ n o tombs after) : ¬ TrackedAfter c₂ n tombs after := by
  have hempty : tombs = [] := System.reports_empty hrun read.reported_mem
  rintro ⟨hmem, -⟩
  simp [hempty] at hmem

section Example

/-- One client writes object 5 in a tracked transaction that commits at both
stores. Another then reads it in a tracked transaction that writes object 6, and
goes on to its causal phase. -/
def writeThenRead : List (Action Bool) :=
  [.begin false ⟨11, 1, 0⟩ true [.assignment 5 1] [],
    .send false, .start false, .effect false, .effect false, .effect false,
    .commit false (fun _ => 0) true,
    .send false, .start false, .effect false, .commit false (fun _ => 0) true,
    .begin true ⟨12, 1, 0⟩ true [.letRemote 5 fun _ => 0, .assignment 6 1] [],
    .send true, .start true, .effect true, .effect true, .effect true, .effect true,
    .commit true (fun _ => 0) true, .send true, .start true]

theorem writeThenRead_history :
    (run System.step System.init writeThenRead).map System.history =
      some [.sent false .strong [], .started false .strong [],
        .committed false .strong [(5, ⟨11, 1, 0⟩)], .reported false .strong [],
        .sent false .causal [], .started false .causal [],
        .committed false .causal [], .reported false .causal [],
        .sent true .strong [], .started true .strong [5 * bigprimeLin, 5, 11],
        .read true .strong 5, .committed true .strong [(6, ⟨12, 1, 0⟩)],
        .reported true .strong [],
        .sent true .causal [], .started true .causal [11]] := by
  decide

theorem writeThenRead_crossRead {s : System Bool}
    (h : run System.step System.init writeThenRead = some s) :
    CrossRead s.history false true ⟨11, 1, 0⟩ 5 []
      [.sent true .causal [], .started true .causal [11]] := by
  have hhistory := writeThenRead_history
  simp only [h, Option.map_some, Option.some.injEq] at hhistory
  refine ⟨[.sent false .strong [], .started false .strong []],
    [.reported false .strong [], .sent false .causal [], .started false .causal [],
      .committed false .causal [], .reported false .causal [], .sent true .strong [],
      .started true .strong [5 * bigprimeLin, 5, 11]],
    [.committed true .strong [(6, ⟨12, 1, 0⟩)]], [(5, ⟨11, 1, 0⟩)], hhistory, ?_⟩
  simp

theorem writeThenRead_runs :
    ∃ s, run System.step System.init writeThenRead = some s :=
  Option.isSome_iff_exists.mp (by decide)

/-- The read of object 5 is a cross-client read that goes untracked. -/
theorem writeThenRead_not_tracked :
    ∃ s, run System.step System.init writeThenRead = some s ∧
      CrossRead s.history false true ⟨11, 1, 0⟩ 5 []
        [.sent true .causal [], .started true .causal [11]] ∧
      ¬ TrackedAfter true ⟨11, 1, 0⟩ [] [.sent true .causal [], .started true .causal [11]] := by
  obtain ⟨s, hrun⟩ := writeThenRead_runs
  have read := writeThenRead_crossRead hrun
  exact ⟨s, hrun, read, crossRead_not_tracked hrun read⟩

/-- The report after the read does not name the tombstone of the write. -/
theorem causalOrder_untracked : ¬ CausalOrderTracked Bool := by
  intro tracked
  obtain ⟨s, hrun⟩ := writeThenRead_runs
  have reported := (tracked _ s _ _ _ _ _ _ hrun (writeThenRead_crossRead hrun)).1
  simp at reported

end Example

end MixT.Tracking.Protocol
