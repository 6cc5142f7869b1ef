import Horizon.Proofs.BackwardRun

/-! A partial run decides the periods after its target as a full run does.

The states of the target get the value of their idle actions, from the decisions of the next period.
So a partial run succeeds where those periods can be decided and the masses of the idle actions can
be used (`runToPeriod_of_new`); when idle actions are feasible, it succeeds where a full run does.
-/

set_option autoImplicit false

namespace Horizon.Backward

open LedgerM

variable {σ α ρ : Type} [DecidableEq σ] [DecidableEq α] [Scalar ρ]

def attemptIdle (P : Problem σ α ρ) (config : Config ρ) (outcomes : σ → α → List σ) (left : Nat)
    (s : σ) : Except (SolveError σ α) (Decision α ρ) := do
  return ⟨← P.attemptAction config outcomes left s (P.idle s), some (P.idle s)⟩

/-- Decide the periods with at most `left` periods left, and the states of the period before them
for their idle actions, without a ledger. -/
def attemptDownIdle (P : Problem σ α ρ) (config : Config ρ) (spaces : List (StateSpace σ))
    (left : Nat) : Except (SolveError σ α) Unit := do
  attemptDown P config spaces left
  let _ ← (statesOf spaces (config.horizon - (left + 1))).mapM
    (attemptIdle P config (kept P config spaces) left)

def decisionsWithIdle (P : Problem σ α ρ) (config : Config ρ) (spaces : List (StateSpace σ))
    (left : Nat) : σ → Option (Decision α ρ) :=
  fill (decisionsOf P config spaces left) (attemptIdle P config (kept P config spaces) left)
    (statesOf spaces (config.horizon - (left + 1)))

variable {P : Problem σ α ρ} {config : Config ρ} {spaces : List (StateSpace σ)} {left : Nat}

theorem settles_solveIdle {s : σ} {next : StateSpace σ} {D : σ → Option (Decision α ρ)}
    (found : spaces[P.period s + 1]? = some next)
    (inside : P.period s + 1 + left = config.horizon)
    (ready : Ready P config (kept P config spaces) next left D) (undecided : D s = none) :
    Settles P config (kept P config spaces) D (solveIdle P config next s) s
      (attemptIdle P config (kept P config spaces) left s) := by
  have decided : Computes (Holds P config (kept P config spaces) D)
      (do
        let value ← evaluate P config next s (P.idle s)
        pure ⟨value, some (P.idle s)⟩)
      (attemptIdle P config (kept P config spaces) left s) :=
    (computes_evaluate found inside ready (P.idle s)).bind fun _ _ => computes_pure _
  have settled := settles_of_computes decided undecided
  simp only [bind_assoc, pure_bind] at settled
  exact settled

theorem solveDownIdle_settles (complete : Complete P config spaces)
    (inside : left + 1 ≤ config.horizon) {w : Ledger σ α ρ × Tally}
    (holds : Holds P config (kept P config spaces) (decisionsOf P config spaces 0) w) :
    let ran := solveDownIdle P config (spaces.drop (config.horizon - (left + 1))) w
    ran.1 = attemptDownIdle P config spaces left ∧
      (attemptDownIdle P config spaces left = .ok () →
        Holds P config (kept P config spaces) (decisionsWithIdle P config spaces left) ran.2) := by
  obtain ⟨current, found, -, -, dropped⟩ :=
    complete.exists_space (t := config.horizon - (left + 1)) (by omega)
  obtain ⟨next, foundNext, -, -, droppedNext⟩ :=
    complete.exists_space (t := config.horizon - left) (by omega)
  rw [show config.horizon - (left + 1) + 1 = config.horizon - left by omega] at dropped
  rw [dropped, droppedNext, solveDownIdle, ← droppedNext, attemptDownIdle]
  obtain ⟨given, decided⟩ := solveDown_settles complete (Nat.le_of_succ_le inside) holds
  rcases ran : solveDown P config (spaces.drop (config.horizon - left)) w with ⟨outcome, w'⟩
  rw [ran] at given decided
  change outcome = attemptDown P config spaces left at given
  subst given
  cases swept : attemptDown P config spaces left with
  | error e =>
    rw [swept] at ran
    rw [bind_of_error ran]
    exact ⟨rfl, nofun⟩
  | ok _ =>
    rw [swept] at ran
    rw [bind_of_ok ran]
    obtain ⟨given, filled⟩ := forEach_settles_period complete inside found foundNext swept
      (fun s found there D => settles_solveIdle found there) (decided swept)
    refine ⟨given, fun done => ?_⟩
    cases idle : (statesOf spaces (config.horizon - (left + 1))).mapM
        (attemptIdle P config (kept P config spaces) left) with
    | error e =>
      rw [idle] at done
      cases done
    | ok ds => exact filled ds idle

omit [DecidableEq α] in
theorem attemptDownIdle_eq_ok_iff :
    attemptDownIdle P config spaces left = .ok () ↔ attemptDown P config spaces left = .ok () ∧
      ∀ s ∈ statesOf spaces (config.horizon - (left + 1)),
        ∃ d, attemptIdle P config (kept P config spaces) left s = .ok d := by
  rw [attemptDownIdle]
  cases attemptDown P config spaces left with
  | error e => exact ⟨nofun, nofun⟩
  | ok _ =>
    cases decided : (statesOf spaces (config.horizon - (left + 1))).mapM
        (attemptIdle P config (kept P config spaces) left) with
    | error e =>
      refine ⟨nofun, fun both => ?_⟩
      obtain ⟨ds, done⟩ := exists_mapM_of_exists both.2
      rw [decided] at done
      cases done
    | ok ds => exact ⟨fun _ => ⟨rfl, exists_ok_of_mapM decided⟩, fun _ => rfl⟩

section Decided

variable {s : σ}

omit [DecidableEq σ] [DecidableEq α] in
theorem attemptIdle_eq_ok_iff {outcomes : σ → α → List σ} {d : Decision α ρ}
    (decided : ∀ f ∈ outcomes s (P.idle s),
      P.attempt config outcomes left f = .ok (P.optimal config outcomes left f)) :
    attemptIdle P config outcomes left s = .ok d ↔
      P.Weighable s (P.idle s) (outcomes s (P.idle s)) ∧
        d = ⟨P.actionValue config outcomes left s (P.idle s), some (P.idle s)⟩ := by
  rw [attemptIdle]
  have worth := fun x => Problem.attemptAction_eq_ok_iff (x := x) decided
  cases valued : P.attemptAction config outcomes left s (P.idle s) with
  | error e =>
    refine ⟨nofun, fun both => ?_⟩
    have done := (worth _).2 ⟨both.1, rfl⟩
    rw [valued] at done
    cases done
  | ok x =>
    obtain ⟨weighable, rfl⟩ := (worth x).1 valued
    constructor
    · intro done
      cases done
      exact ⟨weighable, rfl⟩
    · rintro ⟨-, rfl⟩
      rfl

omit [DecidableEq α] in
-- The outcomes that count are decided by the passes over the later periods.
theorem attempt_of_kept [Scalar.Ranked ρ] (complete : Complete P config spaces) {t : Nat}
    (below : t < config.horizon)
    (swept : attemptDown P config spaces (config.horizon - (t + 1)) = .ok ())
    (member : s ∈ statesOf spaces t) (a : α) :
    ∀ f ∈ kept P config spaces s a,
      P.attempt config (kept P config spaces) (config.horizon - (t + 1)) f =
        .ok (P.optimal config (kept P config spaces) (config.horizon - (t + 1)) f) := by
  intro f outcome
  refine attempt_of_attemptDown complete (Nat.sub_le _ _) swept ?_
  have next := complete.mem_statesOf_of_mem_kept outcome
  rw [(complete.period_of_mem member).1] at next
  rwa [show config.horizon - (config.horizon - (t + 1)) = t + 1 by omega]

end Decided

section Runs

variable [Hashable σ] [Hashable α] {b : Backward σ α ρ} (lawful : P.Lawful)
  (new : Backward.new P config = .ok b) {target : Nat} (below : target < config.horizon)

include lawful new below

theorem runToPeriod_of_new :
    let spaces := generatedSpaces P config
    let left := config.horizon - (target + 1)
    let ran := b.runToPeriod target
    ran.1 = attemptDownIdle P config spaces left ∧ ran.2.spaces = spaces ∧
      (ran.1 = .ok () → Holds P config (kept P config spaces)
        (decisionsWithIdle P config spaces left) (ran.2.ledger, ran.2.tally)) := by
  intro spaces left
  obtain ⟨tally, prepared⟩ := prepare_start lawful config
  obtain ⟨-, started⟩ := seeded_settles lawful config tally
  obtain ⟨given, decided⟩ := solveDownIdle_settles (complete_generatedSpaces lawful config)
    (show left + 1 ≤ config.horizon by omega) started
  rw [show config.horizon - (left + 1) = target by omega] at given decided
  have ran := runUntil_of_prepare prepared target true
  rw [← (new_eq_ok_iff.1 new).2.2] at ran
  have config_eq : b.config = config := by rw [(new_eq_ok_iff.1 new).2.2]; rfl
  rw [runToPeriod, config_eq, if_neg (Nat.not_le_of_lt below), ran]
  exact ⟨given, rfl, fun done => decided (given.symm.trans done)⟩

variable [Scalar.Ranked ρ]

/-- A partial run succeeds exactly when the states of the periods after its target can be decided,
and the masses of the idle actions at the target can be used. -/
theorem runToPeriod_eq_ok_iff :
    (b.runToPeriod target).1 = .ok () ↔
      (∀ t < config.horizon, target < t → ∀ s ∈ statesOf (generatedSpaces P config) t,
        P.Solvable config (kept P config (generatedSpaces P config)) (config.horizon - (t + 1)) s) ∧
      ∀ s ∈ statesOf (generatedSpaces P config) target,
        P.Weighable s (P.idle s) (kept P config (generatedSpaces P config) s (P.idle s)) := by
  have complete : Complete P config (generatedSpaces P config) :=
    complete_generatedSpaces lawful config
  have later := attemptDown_eq_ok_iff_solvable complete
    (Nat.sub_le config.horizon (target + 1))
  rw [show config.horizon - (config.horizon - (target + 1)) = target + 1 by omega] at later
  rw [(runToPeriod_of_new lawful new below).1, attemptDownIdle_eq_ok_iff,
    show config.horizon - (config.horizon - (target + 1) + 1) = target by omega]
  refine (and_congr_right fun swept => forall₂_congr fun s member => ?_).trans
    (and_congr_left' later)
  have decided := fun f outcome => attempt_of_kept complete below swept member (P.idle s) f outcome
  exact ⟨fun ⟨d, done⟩ => ((attemptIdle_eq_ok_iff decided).1 done).1,
    fun weighable => ⟨_, (attemptIdle_eq_ok_iff decided).2 ⟨weighable, rfl⟩⟩⟩

theorem decision?_of_runToPeriod (done : (b.runToPeriod target).1 = .ok ()) {t : Nat} {s : σ}
    (member : s ∈ statesOf (generatedSpaces P config) t) :
    let outcomes := kept P config (generatedSpaces P config)
    (target < t → (b.runToPeriod target).2.ledger.decision? s =
        some (P.optimal config outcomes (config.horizon - t) s)) ∧
      (t = target → (b.runToPeriod target).2.ledger.decision? s =
        some ⟨P.actionValue config outcomes (config.horizon - (t + 1)) s (P.idle s),
          some (P.idle s)⟩) := by
  have complete : Complete P config (generatedSpaces P config) :=
    complete_generatedSpaces lawful config
  obtain ⟨given, -, decided⟩ := runToPeriod_of_new lawful new below
  obtain ⟨swept, idle⟩ := attemptDownIdle_eq_ok_iff.1 (given.symm.trans done)
  have target_eq : config.horizon - (config.horizon - (target + 1) + 1) = target := by omega
  rw [target_eq] at idle
  obtain ⟨period, inside⟩ := complete.period_of_mem member
  have stored := (decided done).decided s
  rw [decisionsWithIdle, target_eq, fill] at stored
  constructor
  · intro later
    have outside : s ∉ statesOf (generatedSpaces P config) target := by
      intro there
      have same := (complete.period_of_mem there).1
      omega
    have condition : s ∈ statesOf (generatedSpaces P config) (P.period s) ∧
        config.horizon ≤ P.period s + (config.horizon - (target + 1)) :=
      ⟨by rwa [period], by omega⟩
    have fewer := attemptDown_of_le (show config.horizon - t ≤ _ by omega) swept
    rw [← show config.horizon - (config.horizon - t) = t by omega] at member
    rw [stored, if_neg outside, decisionsOf, if_pos condition, period,
      attempt_of_attemptDown complete (Nat.sub_le _ _) fewer member]
    rfl
  · rintro rfl
    obtain ⟨d, done⟩ := idle s member
    have right := (attemptIdle_eq_ok_iff
      (attempt_of_kept complete below swept member (P.idle s))).1 done
    rw [stored, if_pos member, done, right.2]
    rfl

end Runs

end Horizon.Backward
