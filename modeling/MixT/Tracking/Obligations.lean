import MixT.Library.Runs
import MixT.Tracking.ClientTracker

/-! # Obligations of a client

A tombstone reported after a phase is an obligation of the following label. It
is discharged once a phase of that label that presented it succeeded. The run
below records reports and discharges beside the tracker. -/

namespace MixT.Tracking.Obligations

open Library.Runs

variable {L : Type*} [DecidableEq L]

/-- The tracker with what was reported for each label and what was discharged there. -/
structure ClientRun (L : Type*) where
  tracker : ClientTracker L
  reported : L → List Tombstone
  discharged : L → List Tombstone

namespace ClientRun

/-- A client before its first transaction. -/
def fresh : ClientRun L := ⟨ClientTracker.fresh, fun _ => [], fun _ => []⟩

/-- The reports for label `n` that a phase brings to the client. -/
def reportFor (seq : LabelSequence L) (n : L) : PhaseRun L → Option (List Tombstone)
  | .locally _ _ => none
  | .remotely label response =>
      if followsInSequence label seq.labels = some n then response.report else none

/-- The phase is one of label `n` that succeeded at its server. -/
def succeededAt (n : L) : PhaseRun L → Bool
  | .locally _ _ => false
  | .remotely label response => label = n && response.succeeded

/-- One phase, with the record of what it reported and what it discharged. -/
def step (seq : LabelSequence L) (s : ClientRun L) (phase : PhaseRun L) : ClientRun L where
  tracker := phase.runOn seq s.tracker
  reported n := s.reported n ++ (reportFor seq n phase).getD []
  discharged n :=
    if succeededAt n phase then s.discharged n ++ s.tracker.tombstonesForPhase n
    else s.discharged n

/-- Every tombstone reported for a label is presented by the next phase of that
label, unless an earlier phase that presented it succeeded. -/
def Held (s : ClientRun L) : Prop :=
  ∀ n, ∀ t ∈ s.reported n, t ∈ s.tracker.tombstonesForPhase n ∨ t ∈ s.discharged n

/-- A report for label `n` finds everything still held for `n` discharged, and
tombstones that share a nonce are the same. -/
def ReportSafe (seq : LabelSequence L) (s : ClientRun L) (phase : PhaseRun L) : Prop :=
  ∀ n ts, reportFor seq n phase = some ts →
    (∀ t ∈ s.tracker.tombstonesForPhase n, t ∈ s.discharged n) ∧
    ∀ t ∈ ts, ∀ u ∈ (s.tracker n).observedTombstones ++ ts, t.nonce = u.nonce → t = u

/-- How the holders and the records fit together. -/
structure Consistent (s : ClientRun L) : Prop where
  held_observed : ∀ n, s.tracker.tombstonesForPhase n ⊆ (s.tracker n).observedTombstones
  discharged_observed : ∀ n, s.discharged n ⊆ (s.tracker n).observedTombstones
  observed_reported : ∀ n, (s.tracker n).observedTombstones ⊆ s.reported n
  nonce_inj : ∀ n, ∀ t ∈ (s.tracker n).observedTombstones,
    ∀ u ∈ (s.tracker n).observedTombstones, t.nonce = u.nonce → t = u

end ClientRun

section Filing

namespace TombHolder

variable (h : TombHolder) (ts : List Tombstone)

theorem file_obligations_subset (t : Tombstone) :
    h.obligations ⊆ (h.file t).obligations := by
  unfold TombHolder.file
  split <;> simp

theorem file_observed_subset (t : Tombstone) :
    h.observedTombstones ⊆ (h.file t).observedTombstones := by
  unfold TombHolder.file
  split <;> simp

theorem foldl_file_obligations_subset :
    h.obligations ⊆ (ts.foldl TombHolder.file h).obligations := by
  induction ts generalizing h with
  | nil => exact List.Subset.refl _
  | cons t rest ih => exact List.Subset.trans (file_obligations_subset h t) (ih (h.file t))

theorem foldl_file_observed_subset :
    h.observedTombstones ⊆ (ts.foldl TombHolder.file h).observedTombstones := by
  induction ts generalizing h with
  | nil => exact List.Subset.refl _
  | cons t rest ih => exact List.Subset.trans (file_observed_subset h t) (ih (h.file t))

theorem foldl_file_held_observed (held : h.obligations ⊆ h.observedTombstones) :
    (ts.foldl TombHolder.file h).obligations ⊆
      (ts.foldl TombHolder.file h).observedTombstones := by
  induction ts generalizing h with
  | nil => exact held
  | cons t rest ih =>
      refine ih (h.file t) ?_
      unfold TombHolder.file
      split
      · exact held
      · simp only [List.append_subset]
        exact ⟨List.Subset.trans held (List.subset_append_left _ _), List.subset_append_right _ _⟩

/-- Filing adds observed tombstones from the report only. -/
theorem mem_observed_of_foldl_file {t : Tombstone}
    (ht : t ∈ (ts.foldl TombHolder.file h).observedTombstones) :
    t ∈ h.observedTombstones ∨ t ∈ ts := by
  induction ts generalizing h with
  | nil => exact Or.inl ht
  | cons a rest ih =>
      rcases ih (h.file a) ht with hold | hrest
      · unfold TombHolder.file at hold
        split at hold
        · exact Or.inl hold
        · rcases List.mem_append.mp hold with h₀ | h₁
          · exact Or.inl h₀
          · exact Or.inr (by simp_all)
      · exact Or.inr (List.mem_cons_of_mem _ hrest)

/-- Filing keeps the observed tombstones apart by nonce. -/
theorem foldl_file_nonce_inj
    (inj : ∀ t ∈ h.observedTombstones, ∀ u ∈ h.observedTombstones, t.nonce = u.nonce → t = u) :
    ∀ t ∈ (ts.foldl TombHolder.file h).observedTombstones,
      ∀ u ∈ (ts.foldl TombHolder.file h).observedTombstones, t.nonce = u.nonce → t = u := by
  induction ts generalizing h with
  | nil => exact inj
  | cons a rest ih =>
      refine ih (h.file a) ?_
      unfold TombHolder.file
      split
      · exact inj
      · rename_i hfresh
        have fresh : ∀ t ∈ h.observedTombstones, t.nonce ≠ a.nonce := by
          intro t ht heq
          exact hfresh ((h.observed_iff a).mpr ⟨t, ht, heq⟩)
        intro t ht u hu heq
        rcases List.mem_append.mp ht with told | tnew <;>
          rcases List.mem_append.mp hu with uold | unew
        · exact inj t told u uold heq
        · rw [List.mem_singleton.mp unew] at heq
          exact absurd heq (fresh t told)
        · rw [List.mem_singleton.mp tnew] at heq
          exact absurd heq.symm (fresh u uold)
        · rw [List.mem_singleton.mp tnew, List.mem_singleton.mp unew]

/-- From an empty holder, only tombstones that were not observed before are filed. -/
theorem not_observed_of_foldl_file (empty : h.obligations = []) {t : Tombstone}
    (ht : t ∈ (ts.foldl TombHolder.file h).obligations) : t ∉ h.observedTombstones := by
  suffices split : t ∈ h.obligations ∨ t ∉ h.observedTombstones by simpa [empty] using split
  clear empty
  induction ts generalizing h with
  | nil => exact Or.inl ht
  | cons a rest ih =>
      rcases ih (h.file a) ht with hobl | hfresh
      · unfold TombHolder.file at hobl
        split at hobl
        · exact Or.inl hobl
        · rename_i hnot
          rcases List.mem_append.mp hobl with hold | hnew
          · exact Or.inl hold
          · right
            obtain rfl := List.mem_singleton.mp hnew
            intro hobs
            exact hnot ((h.observed_iff t).mpr ⟨t, hobs, rfl⟩)
      · exact Or.inr fun hobs => hfresh (file_observed_subset h a hobs)

/-- A reported tombstone with a nonce of its own is filed, unless it was observed before. -/
theorem filed_of_nonce_inj {t : Tombstone} (ht : t ∈ ts)
    (inj : ∀ u ∈ h.observedTombstones ++ ts, t.nonce = u.nonce → t = u) :
    t ∈ h.observedTombstones ∨ t ∈ (ts.foldl TombHolder.file h).obligations := by
  induction ts generalizing h with
  | nil => simp at ht
  | cons a rest ih =>
      by_cases hobs : t ∈ h.observedTombstones
      · exact Or.inl hobs
      · right
        by_cases hat : a = t
        · -- `t` is filed in this round: no observed tombstone has its nonce
          subst hat
          have hnot : ¬ h.observed a = true := by
            rw [h.observed_iff]
            rintro ⟨u, hu, heq⟩
            exact hobs (inj u (List.mem_append_left _ hu) heq.symm ▸ hu)
          have hfile : a ∈ (h.file a).obligations := by simp [TombHolder.file, hnot]
          exact foldl_file_obligations_subset (h.file a) rest hfile
        · have hrest : t ∈ rest := (List.mem_cons.mp ht).resolve_left (Ne.symm hat)
          have hobs' : t ∉ (h.file a).observedTombstones := by
            unfold TombHolder.file
            split
            · exact hobs
            · simp [hobs, Ne.symm hat]
          refine (ih (h.file a) hrest ?_).resolve_left hobs'
          intro u hu heq
          refine inj u ?_ heq
          rcases List.mem_append.mp hu with hu | hu
          · have := mem_observed_of_foldl_file h [a] hu
            simp only [List.mem_append, List.mem_cons, List.not_mem_nil, or_false] at this ⊢
            tauto
          · simp [hu]

end TombHolder

end Filing

namespace ClientRun

variable {seq : LabelSequence L}

/-- What one phase does to the holder and the records of one label: nothing, a
presentation, or a report. -/
theorem step_cases (seq : LabelSequence L) (s : ClientRun L) (phase : PhaseRun L) (n : L) :
    (reportFor seq n phase = none ∧ succeededAt n phase = false ∧
      ((s.step seq phase).tracker n).obligations = (s.tracker n).obligations ∧
      ((s.step seq phase).tracker n).observedTombstones = (s.tracker n).observedTombstones) ∨
    (reportFor seq n phase = none ∧ succeededAt n phase = true ∧
      ((s.step seq phase).tracker n).obligations ⊆ (s.tracker n).obligations ∧
      ((s.step seq phase).tracker n).observedTombstones = (s.tracker n).observedTombstones) ∨
    (∃ ts, reportFor seq n phase = some ts ∧ succeededAt n phase = false ∧
      (s.step seq phase).tracker n =
        ts.foldl TombHolder.file (s.tracker n).resetObligations) := by
  cases phase with
  | locally label throws => simp [step, reportFor, succeededAt, PhaseRun.runOn]
  | remotely label response =>
      cases response with
      | refused =>
          simp [step, reportFor, succeededAt, PhaseRun.runOn, remoteInterp, Response.report,
            Response.succeeded]
      | lost executed =>
          by_cases hl : label = n ∧ executed = true
          · obtain ⟨rfl, rfl⟩ := hl
            simp [step, reportFor, succeededAt, PhaseRun.runOn, remoteInterp, Response.report,
              Response.succeeded]
          · left
            simpa [step, reportFor, succeededAt, PhaseRun.runOn, remoteInterp, Response.report,
              Response.succeeded] using hl
      | accepted newMin newRecent ts merged =>
          by_cases hnext : followsInSequence label seq.labels = some n
          · have hne : n ≠ label := follows_ne seq.nodup hnext
            right; right
            refine ⟨ts, ?_, ?_, ?_⟩
            · simp [reportFor, hnext, Response.report]
            · simp [succeededAt, Ne.symm hne]
            · cases merged <;>
                simp [step, PhaseRun.runOn, remoteInterp, ClientTracker.setPhaseAfter, hnext,
                  ClientTracker.clearTombstones, ClientTracker.updateClocks, hne]
          · have hreport : reportFor seq n (.remotely label
                (.accepted newMin newRecent ts merged)) = none := by
              simp [reportFor, hnext]
            have hset : ∀ trk : ClientTracker L,
                (trk.setPhaseAfter seq label ts) n = trk n := by
              intro trk
              cases hfollows : followsInSequence label seq.labels with
              | none => simp [ClientTracker.setPhaseAfter, hfollows]
              | some next =>
                  have hne : n ≠ next := by
                    rintro rfl
                    exact hnext hfollows
                  simp [ClientTracker.setPhaseAfter, hfollows, hne]
            by_cases hl : label = n
            · subst hl
              right; left
              refine ⟨hreport, by simp [succeededAt, Response.succeeded], ?_, ?_⟩ <;>
                cases merged <;>
                simp [step, PhaseRun.runOn, remoteInterp, hset, ClientTracker.clearTombstones,
                  ClientTracker.updateClocks]
            · left
              refine ⟨hreport, by simp [succeededAt, hl], ?_, ?_⟩ <;>
                cases merged <;>
                simp [step, PhaseRun.runOn, remoteInterp, hset, ClientTracker.clearTombstones,
                  ClientTracker.updateClocks, Function.update_of_ne (Ne.symm hl)]

@[simp] theorem step_reported (s : ClientRun L) (phase : PhaseRun L) (n : L) :
    (s.step seq phase).reported n = s.reported n ++ (reportFor seq n phase).getD [] := rfl

theorem step_discharged (s : ClientRun L) (phase : PhaseRun L) (n : L) :
    (s.step seq phase).discharged n =
      if succeededAt n phase then s.discharged n ++ s.tracker.tombstonesForPhase n
      else s.discharged n := rfl

omit [DecidableEq L] in
theorem consistent_fresh : Consistent (fresh : ClientRun L) := by
  constructor <;> intro n <;>
    simp [fresh, ClientTracker.fresh, TombHolder.fresh, ClientTracker.tombstonesForPhase]

omit [DecidableEq L] in
theorem held_fresh : Held (fresh : ClientRun L) := by
  intro n t ht
  simp [fresh] at ht

/-- Every phase keeps the holders and the records consistent. -/
theorem consistent_step (seq : LabelSequence L) {s : ClientRun L} (phase : PhaseRun L) (h : s.Consistent) :
    (s.step seq phase).Consistent := by
  have hrecords : ∀ n, s.reported n ⊆ (s.step seq phase).reported n := by
    intro n
    simp
  constructor <;> intro n <;>
    obtain ⟨hrep, hsucc, hobl, hobs⟩ | ⟨hrep, hsucc, hobl, hobs⟩ | ⟨ts, hrep, hsucc, hholder⟩ :=
      step_cases seq s phase n
  -- held_observed
  · simpa [ClientTracker.tombstonesForPhase, hobl, hobs] using h.held_observed n
  · rw [hobs]
    exact List.Subset.trans hobl (h.held_observed n)
  · unfold ClientTracker.tombstonesForPhase
    rw [hholder]
    exact TombHolder.foldl_file_held_observed _ ts (by simp)
  -- discharged_observed
  · simpa [step_discharged, hsucc, hobs] using h.discharged_observed n
  · simp only [step_discharged, hsucc, hobs, if_true, List.append_subset]
    exact ⟨h.discharged_observed n, h.held_observed n⟩
  · rw [hholder, step_discharged, hsucc]
    exact List.Subset.trans (h.discharged_observed n)
      (TombHolder.foldl_file_observed_subset (s.tracker n).resetObligations ts)
  -- observed_reported
  · rw [hobs]
    exact List.Subset.trans (h.observed_reported n) (hrecords n)
  · rw [hobs]
    exact List.Subset.trans (h.observed_reported n) (hrecords n)
  · rw [hholder, step_reported, hrep]
    intro t ht
    rcases TombHolder.mem_observed_of_foldl_file _ ts ht with hold | hnew
    · exact List.mem_append_left _ (h.observed_reported n hold)
    · exact List.mem_append_right _ hnew
  -- nonce_inj
  · simpa [hobs] using h.nonce_inj n
  · simpa [hobs] using h.nonce_inj n
  · rw [hholder]
    exact TombHolder.foldl_file_nonce_inj _ ts (h.nonce_inj n)

/-- A phase that reports nothing for `n` keeps the obligations of `n`. -/
theorem held_of_no_report {s : ClientRun L} {phase : PhaseRun L} {n : L} (held : s.Held)
    (hrep : reportFor seq n phase = none) {t : Tombstone}
    (ht : t ∈ (s.step seq phase).reported n) :
    t ∈ (s.step seq phase).tracker.tombstonesForPhase n ∨
      t ∈ (s.step seq phase).discharged n := by
  have hold : t ∈ s.reported n := by simpa [hrep] using ht
  obtain ⟨-, hsucc, hobl, -⟩ | ⟨-, hsucc, hobl, -⟩ | ⟨ts, hsome, -⟩ :=
    step_cases seq s phase n
  · simpa [ClientTracker.tombstonesForPhase, hobl, step_discharged, hsucc] using held n t hold
  · -- the phase presented what it may now drop
    right
    simp only [step_discharged, hsucc, if_true, List.mem_append]
    exact (held n t hold).symm
  · rw [hrep] at hsome
    cases hsome

/-- A phase keeps every obligation exactly when its report is safe. -/
theorem held_step_iff {s : ClientRun L} (phase : PhaseRun L) (h : s.Consistent)
    (held : s.Held) : (s.step seq phase).Held ↔ s.ReportSafe seq phase := by
  have hafter := consistent_step seq phase h
  constructor
  · intro held' n ts hrep
    obtain ⟨hnone, -⟩ | ⟨hnone, -⟩ | ⟨ts', hts', hsucc, hholder⟩ :=
      step_cases seq s phase n
    · rw [hrep] at hnone; cases hnone
    · rw [hrep] at hnone; cases hnone
    obtain rfl : ts = ts' := Option.some.inj (hrep.symm.trans hts')
    have hdisch : (s.step seq phase).discharged n = s.discharged n := by
      simp [step_discharged, hsucc]
    have seen : ∀ t ∈ (s.tracker n).observedTombstones ++ ts,
        t ∈ ((s.step seq phase).tracker n).observedTombstones := by
      intro t ht
      rcases List.mem_append.mp ht with ht | ht
      · rw [hholder]
        exact TombHolder.foldl_file_observed_subset (s.tracker n).resetObligations ts ht
      · have hrepd : t ∈ (s.step seq phase).reported n := by simp [hrep, ht]
        rcases held' n t hrepd with hheld | hdone
        · exact hafter.held_observed n hheld
        · exact hafter.discharged_observed n hdone
    refine ⟨?_, ?_⟩
    · intro t ht
      have hobs : t ∈ (s.tracker n).observedTombstones := h.held_observed n ht
      have hrepd : t ∈ (s.step seq phase).reported n := by
        simp [h.observed_reported n hobs]
      rcases held' n t hrepd with hheld | hdone
      · -- the holder was reset, and an observed tombstone is not filed again
        unfold ClientTracker.tombstonesForPhase at hheld
        rw [hholder] at hheld
        exact absurd hobs (TombHolder.not_observed_of_foldl_file
          (s.tracker n).resetObligations ts rfl hheld)
      · rwa [hdisch] at hdone
    · intro t ht u hu heq
      exact hafter.nonce_inj n t (seen t (List.mem_append_right _ ht)) u (seen u hu) heq
  · intro safe n t ht
    cases hrep : reportFor seq n phase with
    | none => exact held_of_no_report held hrep ht
    | some ts =>
        obtain ⟨hdone, hinj⟩ := safe n ts hrep
        obtain ⟨hnone, -⟩ | ⟨hnone, -⟩ | ⟨ts', hts', hsucc, hholder⟩ :=
          step_cases seq s phase n
        · rw [hrep] at hnone; cases hnone
        · rw [hrep] at hnone; cases hnone
        obtain rfl : ts = ts' := Option.some.inj (hrep.symm.trans hts')
        have hdisch : (s.step seq phase).discharged n = s.discharged n := by
          simp [step_discharged, hsucc]
        have old : t ∈ s.reported n → t ∈ s.discharged n := fun h' =>
          (held n t h').elim (hdone t) id
        simp only [step_reported, hrep, Option.getD_some, List.mem_append] at ht
        rcases ht with hold | hnew
        · exact Or.inr (hdisch ▸ old hold)
        · rcases TombHolder.filed_of_nonce_inj (s.tracker n).resetObligations ts hnew
            (hinj t hnew) with hobs | hfiled
          · exact Or.inr (hdisch ▸ old (h.observed_reported n hobs))
          · left
            unfold ClientTracker.tombstonesForPhase
            rwa [hholder]

end ClientRun

section Runs

open ClientRun

/-- The phases of one client as a step function; no phase is refused. -/
def clientStep (seq : LabelSequence L) (s : ClientRun L) (phase : PhaseRun L) :
    Option (ClientRun L) :=
  some (s.step seq phase)

theorem run_tracker (seq : LabelSequence L) (phases : List (PhaseRun L)) (s : ClientRun L) :
    (run (clientStep seq) s phases).map ClientRun.tracker =
      some (phases.foldl (fun trk phase => phase.runOn seq trk) s.tracker) := by
  induction phases generalizing s with
  | nil => rfl
  | cons phase rest ih => exact ih (s.step seq phase)

/-- The tracker at the end of the run is the one the client's transactions leave. -/
theorem run_transactions_tracker (seq : LabelSequence L) (txns : List (List (PhaseRun L))) :
    (run (clientStep seq) fresh (txns.flatMap executedPhases)).map ClientRun.tracker =
      some (runTransactions seq ClientTracker.fresh txns) := by
  rw [run_tracker, runTransactions_eq_foldl]
  rfl

/-- Every state that a client's transactions reach keeps its obligations. -/
def ObligationsKept (seq : LabelSequence L) (txns : List (List (PhaseRun L))) : Prop :=
  ∀ s, Visits (clientStep seq) fresh (txns.flatMap executedPhases) s → s.Held

/-- A client keeps its obligations throughout exactly when every report it
receives is safe where it arrives. -/
theorem obligationsKept_iff (seq : LabelSequence L) (txns : List (List (PhaseRun L))) :
    ObligationsKept seq txns ↔
      ∀ s phase s', Takes (clientStep seq) fresh (txns.flatMap executedPhases) s phase s' →
        s.ReportSafe seq phase := by
  refine visits_iff_takes Consistent Held (ReportSafe seq) consistent_fresh held_fresh ?_ ?_
  · intro s phase s' hstep h
    simp only [clientStep, Option.some.injEq] at hstep
    exact hstep ▸ consistent_step seq phase h
  · intro s phase s' hstep h held
    simp only [clientStep, Option.some.injEq] at hstep
    exact hstep ▸ held_step_iff phase h held

/-- A strong label followed by a weak one. -/
def strongWeak : LabelSequence Bool := ⟨[true, false], by decide⟩

/-- The strong phase of one transaction reports a tombstone, the strong phase of
the next reports none, and no weak phase runs between them. -/
def twoStrongReports (t : Tombstone) : List (List (PhaseRun Bool)) :=
  [[.remotely true (.accepted (fun _ => 0) (fun _ => 0) [t] true)],
    [.remotely true (.accepted (fun _ => 0) (fun _ => 0) [] true)]]

/-- The second report drops the undischarged tombstone of the first. -/
theorem twoStrongReports_drops : ¬ ObligationsKept strongWeak (twoStrongReports ⟨7, 1, 0⟩) := by
  intro kept
  have held := kept _ (visits_end rfl) false ⟨7, 1, 0⟩ (by decide)
  revert held
  decide

end Runs

end MixT.Tracking.Obligations
