import Horizon.Proofs.Alike
import Horizon.Proofs.Sequence
import Horizon.Proofs.WriteOnce

/-! The states of a period in any order, and the actions of a state in any order.

A schedule names the order in which the states of a period are solved and the turns in which the
actions of each are evaluated; the values are put back into the order of the actions before the best
is chosen. What a state comes to is said by the ledger that the period begins with (`verdict`),
because solving other states of the period changes nothing that is read for it. So how far a period
has been solved is described by which states and pairs have been gone through (`Progress`), and that
does not know their order.
-/

set_option autoImplicit false

namespace Horizon

theorem forM_eq_ok_iff {ε β : Type} {step : β → Except ε Unit} {xs : List β} :
    xs.forM step = .ok () ↔ ∀ x ∈ xs, step x = .ok () := by
  induction xs with
  | nil => exact ⟨fun _ => nofun, fun _ => rfl⟩
  | cons x rest ih =>
    rw [List.forall_mem_cons, ← ih]
    change (step x >>= fun _ => rest.forM step) = .ok () ↔ _
    cases step x with
    | error e => exact ⟨nofun, fun both => nomatch both.1⟩
    | ok _ => exact ⟨fun others => ⟨rfl, others⟩, fun both => both.2⟩

variable {σ α ρ : Type} [DecidableEq σ] [DecidableEq α]

namespace LedgerM

variable {ω β γ : Type}

def evaluateTurns (evaluate : α → LedgerM σ α ρ ω ρ) :
    List (α × Nat) → LedgerM σ α ρ ω (List ((α × Nat) × ρ))
  | [] => pure []
  | turn :: rest => do
    let value ← evaluate turn.1
    let values ← evaluateTurns evaluate rest
    return (turn, value) :: values

def arrange (as : List α) (values : List ((α × Nat) × ρ)) : List (α × ρ) :=
  as.zipIdx.filterMap fun turn => (values.lookup turn).map fun value => (turn.1, value)

/-- Evaluate actions turn by turn, and list their values in the order of the actions. -/
def evaluateInTurn (evaluate : α → LedgerM σ α ρ ω ρ) (as : List α) (turns : List (α × Nat)) :
    LedgerM σ α ρ ω (List (α × ρ)) := do
  let values ← evaluateTurns evaluate turns
  return arrange as values

-- What is listed for a key is found when the key tells what it is.
theorem lookup_map_of_mem {κ ν : Type} [BEq κ] [LawfulBEq κ] (key : γ → κ) (value : γ → ν)
    {xs : List γ} {x : γ} (member : x ∈ xs)
    (functional : ∀ y ∈ xs, key y = key x → value y = value x) :
    (xs.map fun y => (key y, value y)).lookup (key x) = some (value x) := by
  induction xs with
  | nil => exact absurd member List.not_mem_nil
  | cons first rest ih =>
    rw [List.map_cons, List.lookup_cons]
    by_cases same : key first = key x
    · simp [same, functional first List.mem_cons_self same]
    · have other : (key x == key first) = false := by simpa using Ne.symm same
      have later : x ∈ rest := by
        refine List.mem_of_ne_of_mem ?_ member
        rintro rfl
        exact same rfl
      simp only [other]
      exact ih later fun y listed => functional y (List.mem_cons_of_mem first listed)

-- Whatever the turns were, the values come back in the order of the actions.
theorem arrange_map {as : List α} {turns : List (α × Nat)} (perm : turns.Perm as.zipIdx)
    (value : α → ρ) :
    arrange as (turns.map fun turn => (turn, value turn.1)) = as.map fun a => (a, value a) := by
  have found : ∀ turn ∈ as.zipIdx,
      ((turns.map fun turn => (turn, value turn.1)).lookup turn).map (fun x => (turn.1, x)) =
        some (turn.1, value turn.1) := by
    intro turn member
    have listed := lookup_map_of_mem id (fun turn : α × Nat => value turn.1)
      (perm.mem_iff.2 member) fun _ _ same => congrArg (fun turn => value turn.1) same
    exact congrArg (Option.map fun x => (turn.1, x)) listed
  rw [arrange, List.filterMap_congr found, List.filterMap_eq_map']
  conv => rhs; rw [← List.zipIdx_map_fst 0 as, List.map_map]
  rfl

theorem fst_of_evaluateAll {evaluate : α → LedgerM σ α ρ ω ρ} {as : List α}
    {w w' : Ledger σ α ρ × ω} {candidates : List (α × ρ)}
    (done : evaluateAll evaluate as w = (.ok candidates, w')) : candidates.map Prod.fst = as := by
  induction as generalizing w candidates with
  | nil =>
    cases done
    rfl
  | cons a rest ih =>
    obtain ⟨x, w₁, -, done⟩ := exists_of_bind done
    obtain ⟨xs, w₂, others, done⟩ := exists_of_bind done
    cases done
    rw [List.map_cons, ih others]

def marked (k : Nat) (candidates : List (α × ρ)) : List ((α × Nat) × ρ) :=
  (candidates.zipIdx k).map fun c => ((c.1.1, c.2), c.1.2)

theorem evaluateTurns_zipIdx (evaluate : α → LedgerM σ α ρ ω ρ) (as : List α) (k : Nat) :
    evaluateTurns evaluate (as.zipIdx k) = (do
      let candidates ← evaluateAll evaluate as
      return marked k candidates) := by
  induction as generalizing k with
  | nil => rfl
  | cons a rest ih =>
    rw [List.zipIdx_cons, evaluateTurns, evaluateAll, ih]
    simp only [bind_assoc, pure_bind]
    rfl

theorem arrange_marked {as : List α} {candidates : List (α × ρ)}
    (firsts : candidates.map Prod.fst = as) : arrange as (marked 0 candidates) = candidates := by
  have found : ∀ c ∈ candidates.zipIdx,
      ((marked 0 candidates).lookup (c.1.1, c.2)).map (fun x => (c.1.1, x)) = some c.1 := by
    intro c member
    have listed := lookup_map_of_mem (fun c : (α × ρ) × Nat => (c.1.1, c.2)) (fun c => c.1.2)
      member fun d other same => ?_
    · exact congrArg (Option.map fun x => (c.1.1, x)) listed
    · -- a position tells the candidate
      have here := List.mk_mem_zipIdx_iff_getElem?.1 member
      have there := List.mk_mem_zipIdx_iff_getElem?.1 other
      rw [(Prod.mk.inj same).2, here] at there
      rw [Option.some.inj there]
  subst firsts
  rw [arrange, List.zipIdx_map, List.filterMap_map]
  exact (List.filterMap_congr found).trans (by rw [List.filterMap_eq_map', List.zipIdx_map_fst])

theorem evaluateInTurn_zipIdx (evaluate : α → LedgerM σ α ρ ω ρ) (as : List α) :
    evaluateInTurn evaluate as as.zipIdx = evaluateAll evaluate as := by
  funext w
  rw [evaluateInTurn, evaluateTurns_zipIdx, bind_assoc]
  rcases ran : evaluateAll evaluate as w with ⟨result, w'⟩
  cases result with
  | error e => rw [bind_of_error ran]
  | ok candidates =>
    rw [bind_of_ok ran, pure_bind, arrange_marked (fst_of_evaluateAll ran)]
    rfl

/-- Where `before` holds, `m` gives `result`, and `after` holds if that is no error. -/
def Yields (before : Ledger σ α ρ × ω → Prop) (m : LedgerM σ α ρ ω β)
    (result : Except (SolveError σ α) β) (after : Ledger σ α ρ × ω → Prop) : Prop :=
  ∀ w, before w → (m w).1 = result ∧ ∀ x, result = .ok x → after (m w).2

section Yields

variable {before between after : Ledger σ α ρ × ω → Prop}

theorem yields_pure (x : β) : Yields before (pure x) (.ok x) before :=
  fun _ held => ⟨rfl, fun _ _ => held⟩

theorem yields_ofExcept (e : Except (SolveError σ α) β) : Yields before (ofExcept e) e before :=
  fun _ held => ⟨rfl, fun _ _ => held⟩

theorem Yields.bind {m : LedgerM σ α ρ ω β} {f : β → LedgerM σ α ρ ω γ}
    {result : Except (SolveError σ α) β} {next : β → Except (SolveError σ α) γ}
    (first : Yields before m result between)
    (second : ∀ x, result = .ok x → Yields between (f x) (next x) after) :
    Yields before (m >>= f) (result >>= next) after := by
  intro w held
  obtain ⟨given, reached⟩ := first w held
  rcases ran : m w with ⟨r, w'⟩
  rw [ran] at given reached
  change r = result at given
  subst given
  cases r with
  | error e =>
    rw [bind_of_error ran]
    exact ⟨rfl, fun _ done => by cases done⟩
  | ok x =>
    rw [bind_of_ok ran]
    exact second x rfl w' (reached x rfl)

end Yields

section Terms

variable [Scalar ρ] {P : Problem σ α ρ} {s : σ} {a : α} {l : Ledger σ α ρ} {c : ω}

-- Looking successors up changes nothing but the note of what has been collected.
theorem addTerms_valueOf (discount sum : ρ) (fs : List σ) (ws : List ρ) :
    ∃ ts, addTerms P valueOf discount s a sum fs ws (l, c) =
      (do
        let terms ← (fs.zip ws).mapM fun x => P.term discount l.value s a x.1 x.2
        return terms.foldl (· + ·) sum, { l with transitions := ts }, c) := by
  induction fs generalizing l sum ws with
  | nil => exact ⟨l.transitions, rfl⟩
  | cons f rest ih =>
    cases ws with
    | nil => exact ⟨l.transitions, rfl⟩
    | cons w others =>
      cases known : l.value f with
      | error e =>
        have failed : (valueOf f : LedgerM σ α ρ ω ρ) (l, c) = (.error e, l, c) := by
          rw [valueOf, query, known]
        refine ⟨l.transitions, ?_⟩
        rw [addTerms, bind_of_error failed, List.zip_cons_cons, List.mapM_cons, Problem.term, known]
        rfl
      | ok x =>
        have found : (valueOf f : LedgerM σ α ρ ω ρ) (l, c) = (.ok x, l, c) := by
          rw [valueOf, query, known]
        obtain ⟨ts, later⟩ := ih (l := l.collect s a f)
          (sum + w * (P.immediate s a f + discount * x)) others
        refine ⟨ts, ?_⟩
        rw [addTerms, bind_of_ok found, List.zip_cons_cons, List.mapM_cons, Problem.term, known]
        refine later.trans (Prod.ext ?_ rfl)
        change (do
          let terms ← (rest.zip others).mapM fun y : σ × ρ => P.term discount l.value s a y.1 y.2
          return terms.foldl (· + ·) (sum + w * (P.immediate s a f + discount * x))) = _
        cases (rest.zip others).mapM fun y => P.term discount l.value s a y.1 y.2 <;> rfl

def noted (l : Ledger σ α ρ) (ts : List (σ × α × σ)) (s : σ) (a : α) :
    Except (SolveError σ α) ρ → Ledger σ α ρ
  | .ok x => (Ledger.enterExpected { l with transitions := ts } s a x).2
  | .error _ => { l with transitions := ts }

theorem expectedValue_valueOf (vacant : l.expected? s a = none) (fs : List σ) :
    ∃ ts, expectedValue P (pure fs) valueOf s a (l, c) =
      (P.appraise l.discount l.value s a fs,
        noted l ts s a (P.appraise l.discount l.value s a fs), c) := by
  rw [expectedValue_of_vacant vacant, pure_bind]
  cases weighed : P.weights s a fs with
  | error e =>
    refine ⟨l.transitions, ?_⟩
    rw [Problem.appraise, weighed]
    rfl
  | ok ws =>
    have usable : (ofExcept (P.weights s a fs) : LedgerM σ α ρ ω _) (l, c) = (.ok ws, l, c) := by
      rw [ofExcept, weighed]
    have worth : P.appraise l.discount l.value s a fs = (do
        let terms ← (fs.zip ws).mapM fun y => P.term l.discount l.value s a y.1 y.2
        return terms.foldl (· + ·) 0) := by
      rw [Problem.appraise, weighed]
      rfl
    obtain ⟨ts, added⟩ := addTerms_valueOf (c := c) (P := P) (s := s) (a := a) l.discount 0 fs ws
    rw [← worth] at added
    refine ⟨ts, ?_⟩
    rw [← weighed, bind_of_ok usable, query_bind rfl]
    cases given : P.appraise l.discount l.value s a fs with
    | error e =>
      rw [given] at added
      rw [bind_of_error added]
      rfl
    | ok x =>
      rw [given] at added
      have entered : (Ledger.enterExpected { l with transitions := ts } s a x).1 = x := by
        have still : ({ l with transitions := ts } : Ledger σ α ρ).expected? s a = none := vacant
        rw [Ledger.enterExpected, still]
      rw [bind_of_ok added]
      exact congrArg (fun y => (Except.ok y, _)) entered

end Terms

end LedgerM

namespace Backward

open LedgerM

/-- An order of some states, and for each state turns for its actions, which are marked with their
positions. -/
structure Schedule (P : Problem σ α ρ) (states : List σ) where
  order : List σ
  turns : σ → List (α × Nat)
  perm_order : order.Perm states
  perm_turns : ∀ s, (turns s).Perm (P.actions s).zipIdx

def Schedule.listed (P : Problem σ α ρ) (states : List σ) : Schedule P states :=
  ⟨states, fun s => (P.actions s).zipIdx, .refl _, fun _ => .refl _⟩

section Schedules

variable [Scalar ρ]

def solveInTurn (P : Problem σ α ρ) (config : Config ρ) (spaces : List (StateSpace σ))
    (turns : σ → List (α × Nat)) (s : σ) : LedgerM σ α ρ Tally Unit :=
  match spaces[P.period s + 1]? with
  | some next => do
    let candidates ← evaluateInTurn (evaluate P config next s) (P.actions s) (turns s)
    let decision ← LedgerM.ofExcept (choose config.direction s candidates)
    LedgerM.decide s decision
    LedgerM.onContext Tally.addSolved
  | none => pure ()

def solveScheduled {P : Problem σ α ρ} (config : Config ρ) (spaces : List (StateSpace σ))
    {states : List σ} (schedule : Schedule P states) : LedgerM σ α ρ Tally Unit :=
  forEach (solveInTurn P config spaces schedule.turns) schedule.order

variable {P : Problem σ α ρ} {config : Config ρ} {spaces : List (StateSpace σ)}

theorem solveInTurn_zipIdx (s : σ) :
    solveInTurn P config spaces (fun s => (P.actions s).zipIdx) s = solveIn P config spaces s := by
  rw [solveInTurn, solveIn]
  simp only [evaluateInTurn_zipIdx]
  rfl

theorem solveScheduled_listed (states : List σ) :
    solveScheduled config spaces (.listed P states) = forEach (solveIn P config spaces) states :=
  forEach_congr fun s _ => solveInTurn_zipIdx s

-- A pass decides the states of its first period last, as they are listed.
theorem solveDown_eq_solveScheduled (complete : Complete P config spaces) {t : Nat}
    (below : t < config.horizon) :
    solveDown P config (spaces.drop t) = (do
      solveDown P config (spaces.drop (t + 1))
      solveScheduled config spaces (.listed P (statesOf spaces t))) := by
  have whole := solveDown_eq_forEach complete (Nat.sub_le config.horizon t)
  have later := solveDown_eq_forEach complete (Nat.sub_le config.horizon (t + 1))
  rw [show config.horizon - (config.horizon - t) = t by omega,
    show config.horizon - t = config.horizon - (t + 1) + 1 by omega, order, forEach_append,
    show config.horizon - (config.horizon - (t + 1) + 1) = t by omega] at whole
  rw [show config.horizon - (config.horizon - (t + 1)) = t + 1 by omega] at later
  rw [whole, later, solveScheduled_listed]

end Schedules

section Verdicts

variable [Scalar ρ]

/-- What an action is worth by a ledger: the value that is entered for it, or else the one that is
worked out from the values of its outcomes. -/
def worthIn (P : Problem σ α ρ) (config : Config ρ) (spaces : List (StateSpace σ))
    (l : Ledger σ α ρ) (s : σ) (a : α) : Except (SolveError σ α) ρ :=
  match l.expected? s a with
  | some x => .ok x
  | none => P.appraise l.discount l.value s a (kept P config spaces s a)

def verdict (P : Problem σ α ρ) (config : Config ρ) (spaces : List (StateSpace σ))
    (l : Ledger σ α ρ) (s : σ) : Except (SolveError σ α) (Decision α ρ) := do
  let candidates ← (P.actions s).mapM fun a => do
    return (a, ← worthIn P config spaces l s a)
  choose config.direction s candidates

def verdictInTurn (P : Problem σ α ρ) (config : Config ρ) (spaces : List (StateSpace σ))
    (l : Ledger σ α ρ) (s : σ) (turns : List (α × Nat)) :
    Except (SolveError σ α) (Decision α ρ) := do
  let values ← turns.mapM fun turn => do
    return (turn, ← worthIn P config spaces l s turn.1)
  choose config.direction s (arrange (P.actions s) values)

variable {P : Problem σ α ρ} {config : Config ρ} {spaces : List (StateSpace σ)}
  {l : Ledger σ α ρ} {s : σ} {turns : List (α × Nat)} {d : Decision α ρ}

omit [DecidableEq σ] [DecidableEq α] [Scalar ρ] in
theorem mem_actions_iff_of_turns (perm : turns.Perm (P.actions s).zipIdx) {a : α} :
    a ∈ P.actions s ↔ ∃ turn ∈ turns, turn.1 = a := by
  have firsts := (perm.map Prod.fst).mem_iff (a := a)
  rw [List.zipIdx_map_fst, List.mem_map] at firsts
  exact firsts.symm

theorem verdictInTurn_eq_of_worth (perm : turns.Perm (P.actions s).zipIdx)
    (each : ∀ a ∈ P.actions s, ∃ x, worthIn P config spaces l s a = .ok x) :
    verdictInTurn P config spaces l s turns = verdict P config spaces l s := by
  have : Nonempty ρ := ⟨0⟩
  choose! value worth using each
  have inTurn := mapM_paired fun turn (member : turn ∈ turns) =>
    worth turn.1 ((mem_actions_iff_of_turns perm).2 ⟨turn, member, rfl⟩)
  rw [verdictInTurn, verdict, inTurn, mapM_paired worth]
  exact congrArg (LedgerM.choose config.direction s) (arrange_map perm value)

-- Which error is met depends on the turns, whether there is one does not.
theorem verdictInTurn_eq_ok_iff (perm : turns.Perm (P.actions s).zipIdx) :
    verdictInTurn P config spaces l s turns = .ok d ↔ verdict P config spaces l s = .ok d := by
  constructor
  · intro chosen
    obtain ⟨values, valued, -⟩ := exists_of_bind_eq_ok chosen
    rw [← verdictInTurn_eq_of_worth perm, chosen]
    intro a feasible
    obtain ⟨turn, member, rfl⟩ := (mem_actions_iff_of_turns perm).1 feasible
    exact exists_ok_of_mapM_paired valued turn member
  · intro chosen
    obtain ⟨candidates, valued, -⟩ := exists_of_bind_eq_ok chosen
    rw [verdictInTurn_eq_of_worth perm, chosen]
    exact exists_ok_of_mapM_paired valued

end Verdicts

/-- How far a period has been solved, from the ledger `l` and the counts `c` on: the pairs `worked`
are entered with what they are worth, and the states `done` are decided. -/
structure Progress [Scalar ρ] (P : Problem σ α ρ) (config : Config ρ)
    (spaces : List (StateSpace σ)) (t : Nat) (l : Ledger σ α ρ) (c : Tally)
    (worked : Finset (σ × α)) (done : Finset σ) (w : Ledger σ α ρ × Tally) : Prop where
  inPeriod : ∀ s ∈ done, P.period s = t
  discount_eq : w.1.discount = l.discount
  expected : ∀ s a, w.1.expected? s a =
    if (s, a) ∈ worked then (worthIn P config spaces l s a).toOption else l.expected? s a
  decided : ∀ s, w.1.decision? s =
    if s ∈ done then (verdict P config spaces l s).toOption else l.decision? s
  evaluations : w.1.evaluations + l.expected.size = l.evaluations + w.1.expected.size
  tally : w.2 = { c with solved := c.solved + done.card }

section Steps

variable [Scalar ρ] {P : Problem σ α ρ} {config : Config ρ} {spaces : List (StateSpace σ)}
  {t : Nat} {l : Ledger σ α ρ} {c : Tally} {worked : Finset (σ × α)} {done : Finset σ}
  {w : Ledger σ α ρ × Tally} {s : σ} {a : α}

namespace Progress

theorem beginning : Progress P config spaces t l c ∅ ∅ (l, c) where
  inPeriod := nofun
  discount_eq := rfl
  expected _ _ := rfl
  decided _ := rfl
  evaluations := rfl
  tally := rfl

-- What is entered is right, whether it was there before or not.
theorem worth_of_entered (held : Progress P config spaces t l c worked done w) {x : ρ}
    (entered : w.1.expected? s a = some x) : worthIn P config spaces l s a = .ok x := by
  rw [held.expected] at entered
  split at entered
  · exact eq_ok_of_toOption entered
  · rw [worthIn, entered]

-- The outcomes belong to the next period, where nothing has changed.
theorem worth_of_vacant (complete : Complete P config spaces)
    (held : Progress P config spaces t l c worked done w) (inPeriod : P.period s = t)
    (vacant : w.1.expected? s a = none) :
    worthIn P config spaces l s a =
      P.appraise w.1.discount w.1.value s a (kept P config spaces s a) := by
  have before : l.expected? s a = none := by
    cases entered : l.expected? s a with
    | none => rfl
    | some x =>
      have worth : worthIn P config spaces l s a = .ok x := by rw [worthIn, entered]
      rw [held.expected, worth, entered] at vacant
      split at vacant <;> cases vacant
  rw [worthIn, before, held.discount_eq]
  refine P.appraise_congr l.discount s a fun f member => ?_
  have later := (complete.period_of_mem (complete.mem_statesOf_of_mem_kept member)).1
  have other : f ∉ done := fun decided => by
    have now := held.inPeriod f decided
    omega
  rw [Ledger.value, Ledger.value, held.decided f, if_neg other]

theorem work (held : Progress P config spaces t l c worked done w) {x : ρ}
    (worth : worthIn P config spaces l s a = .ok x) {l' : Ledger σ α ρ}
    (discount : l'.discount = w.1.discount)
    (expected : ∀ s' a', l'.expected? s' a' =
      if (s, a) = (s', a') then some x else w.1.expected? s' a')
    (decided : ∀ s', l'.decision? s' = w.1.decision? s')
    (evaluations : l'.evaluations + w.1.expected.size = w.1.evaluations + l'.expected.size) :
    Progress P config spaces t l c (insert (s, a) worked) done (l', w.2) where
  inPeriod := held.inPeriod
  discount_eq := discount.trans held.discount_eq
  expected s' a' := by
    rw [expected s' a', held.expected s' a']
    by_cases same : (s, a) = (s', a')
    · cases same
      rw [if_pos rfl, if_pos (Finset.mem_insert_self _ _), worth]
      rfl
    · have still : (s', a') ∈ insert (s, a) worked ↔ (s', a') ∈ worked := by
        rw [Finset.mem_insert, or_iff_right (Ne.symm same)]
      simp only [if_neg same, still]
  decided s' := (decided s').trans (held.decided s')
  evaluations := by
    have before := held.evaluations
    change l'.evaluations + l.expected.size = l.evaluations + l'.expected.size
    omega
  tally := held.tally

theorem settle (held : Progress P config spaces t l c worked done w) (inPeriod : P.period s = t)
    (fresh : s ∉ done) (vacant : w.1.decision? s = none) {d : Decision α ρ}
    (comes : verdict P config spaces l s = .ok d) :
    Progress P config spaces t l c worked (insert s done) ((w.1.publish s d).2, w.2.addSolved) where
  inPeriod := Finset.forall_mem_insert _ _ _ |>.2 ⟨inPeriod, held.inPeriod⟩
  discount_eq := (w.1.discount_publish s d).trans held.discount_eq
  expected s' a' := (w.1.expected?_publish s s' a' d).trans (held.expected s' a')
  decided s' := by
    rw [Ledger.decision?_publish, vacant, held.decided s']
    by_cases same : s = s'
    · subst same
      rw [if_pos rfl, if_pos (Finset.mem_insert_self _ _), comes]
      rfl
    · have still : s' ∈ insert s done ↔ s' ∈ done := by
        rw [Finset.mem_insert, or_iff_right (Ne.symm same)]
      simp only [if_neg same, still]
  evaluations := by
    have same : (w.1.publish s d).2.expected = w.1.expected := by
      rw [Ledger.publish, vacant]
    rw [w.1.evaluations_publish s d, same]
    exact held.evaluations
  tally := by
    rw [held.tally, Finset.card_insert_of_notMem fresh]
    rfl

end Progress

-- Evaluating an action gives what it is worth, stored or not.
theorem yields_evaluate (complete : Complete P config spaces) {next : StateSpace σ}
    (found : spaces[P.period s + 1]? = some next) (inPeriod : P.period s = t) (a : α) :
    Yields (Progress P config spaces t l c worked done) (evaluate P config next s a)
      (worthIn P config spaces l s a)
      (Progress P config spaces t l c (insert (s, a) worked) done) := by
  rw [evaluate_of_next found]
  rintro ⟨l', c'⟩ held
  cases entered : l'.expected? s a with
  | some x =>
    have worth := held.worth_of_entered entered
    rw [expectedValue_of_stored entered, worth]
    refine ⟨rfl, fun _ _ => held.work worth rfl (fun s' a' => ?_) (fun _ => rfl) rfl⟩
    split
    · next same =>
      cases same
      exact entered
    · rfl
  | none =>
    obtain ⟨ts, ran⟩ := expectedValue_valueOf (P := P) (c := c') entered
      (kept P config spaces s a)
    have worth := held.worth_of_vacant complete inPeriod entered
    rw [ran, ← worth]
    refine ⟨rfl, fun x given => ?_⟩
    rw [given, noted]
    have vacant : ({ l' with transitions := ts } : Ledger σ α ρ).expected? s a = none := entered
    refine held.work given (Ledger.discount_enterExpected _ s a x) (fun s' a' => ?_)
      (fun s' => Ledger.decision?_enterExpected _ s s' a x) ?_
    · rw [Ledger.expected?_enterExpected, vacant]
      rfl
    · have absent : l'.expected.contains (s, a) = false := congrArg Option.isSome entered
      have grown := l'.expected.size_insertNew (s, a) x
      rw [absent] at grown
      rw [Ledger.evaluations_enterExpected vacant, Ledger.enterExpected, vacant]
      change l'.evaluations + 1 + l'.expected.size =
        l'.evaluations + (l'.expected.insertNew (s, a) x).size
      rw [grown]
      exact (Nat.add_right_comm _ _ _).trans (Nat.add_assoc _ _ _)

theorem yields_evaluateTurns (complete : Complete P config spaces) {next : StateSpace σ}
    (found : spaces[P.period s + 1]? = some next) (inPeriod : P.period s = t)
    (turns : List (α × Nat)) :
    Yields (Progress P config spaces t l c worked done)
      (evaluateTurns (evaluate P config next s) turns)
      (turns.mapM fun turn => do return (turn, ← worthIn P config spaces l s turn.1))
      (Progress P config spaces t l c
        (worked ∪ (turns.map fun turn => (s, turn.1)).toFinset) done) := by
  induction turns generalizing worked with
  | nil =>
    rw [List.map_nil, List.toFinset_nil, Finset.union_empty]
    exact yields_pure []
  | cons turn rest ih =>
    rw [List.map_cons, List.toFinset_cons, Finset.union_insert, ← Finset.insert_union,
      List.mapM_cons, bind_assoc]
    refine (yields_evaluate complete found inPeriod turn.1).bind fun x _ => ?_
    rw [pure_bind]
    exact ih.bind fun values _ => yields_pure _

def pairsOf (P : Problem σ α ρ) (s : σ) : Finset (σ × α) :=
  ((P.actions s).map fun a => (s, a)).toFinset

def settlement (P : Problem σ α ρ) (config : Config ρ) (spaces : List (StateSpace σ))
    (l : Ledger σ α ρ) (turns : σ → List (α × Nat)) (s : σ) : Except (SolveError σ α) Unit := do
  let _ ← verdictInTurn P config spaces l s (turns s)
  if l.isSolved s then .error (.alreadySolved s) else .ok ()

theorem yields_solveInTurn (complete : Complete P config spaces) (below : t < config.horizon)
    (inPeriod : P.period s = t) (fresh : s ∉ done) {turns : σ → List (α × Nat)}
    (perm : (turns s).Perm (P.actions s).zipIdx) :
    Yields (Progress P config spaces t l c worked done) (solveInTurn P config spaces turns s)
      (settlement P config spaces l turns s)
      (Progress P config spaces t l c (worked ∪ pairsOf P s) (insert s done)) := by
  obtain ⟨next, found, -, -, -⟩ := complete.exists_space (t := P.period s + 1) (by omega)
  have pairs : ((turns s).map fun turn => (s, turn.1)).toFinset = pairsOf P s := by
    have listed := (perm.map Prod.fst).map fun a => (s, a)
    rw [List.zipIdx_map_fst, List.map_map] at listed
    exact List.toFinset_eq_of_perm _ _ listed
  have evaluated : Yields (Progress P config spaces t l c worked done) _ _ _ :=
    yields_evaluateTurns complete found inPeriod (turns s)
  rw [pairs] at evaluated
  have chosen := evaluated.bind fun values _ =>
    yields_ofExcept (choose config.direction s (arrange (P.actions s) values))
  have solved : solveInTurn P config spaces turns s = (do
      let decision ← (do
        let values ← evaluateTurns (evaluate P config next s) (turns s)
        LedgerM.ofExcept (choose config.direction s (arrange (P.actions s) values)))
      LedgerM.decide s decision
      LedgerM.onContext Tally.addSolved) := by
    rw [solveInTurn, found]
    simp only [evaluateInTurn, bind_assoc, pure_bind]
  rw [solved]
  refine chosen.bind fun d comes => ?_
  rintro ⟨l', c'⟩ held
  have before : l'.decision? s = l.decision? s := by rw [held.decided s, if_neg fresh]
  rw [Ledger.isSolved, ← before]
  cases stored : l'.decision? s with
  | some d' =>
    rw [bind_of_error (decide_of_stored d stored)]
    exact ⟨rfl, fun _ done => by cases done⟩
  | none =>
    rw [bind_of_ok (decide_of_vacant d stored)]
    exact ⟨rfl, fun _ _ => held.settle inPeriod fresh stored
      ((verdictInTurn_eq_ok_iff perm).1 comes)⟩

theorem yields_forEach (complete : Complete P config spaces) (below : t < config.horizon)
    {turns : σ → List (α × Nat)} (perm : ∀ s, (turns s).Perm (P.actions s).zipIdx) {xs : List σ}
    (inPeriod : ∀ s ∈ xs, P.period s = t) (distinct : xs.Nodup) (fresh : ∀ s ∈ xs, s ∉ done) :
    Yields (Progress P config spaces t l c worked done)
      (forEach (solveInTurn P config spaces turns) xs)
      (xs.forM (settlement P config spaces l turns))
      (Progress P config spaces t l c (worked ∪ xs.toFinset.biUnion (pairsOf P))
        (done ∪ xs.toFinset)) := by
  induction xs generalizing worked done with
  | nil =>
    rw [List.toFinset_nil, Finset.biUnion_empty, Finset.union_empty, Finset.union_empty]
    exact yields_pure ()
  | cons s rest ih =>
    obtain ⟨absent, distinct⟩ := List.nodup_cons.1 distinct
    rw [List.toFinset_cons, Finset.biUnion_insert, ← Finset.union_assoc, Finset.union_insert,
      ← Finset.insert_union]
    refine (yields_solveInTurn complete below (inPeriod s List.mem_cons_self)
      (fresh s List.mem_cons_self) (perm s)).bind fun _ _ => ?_
    refine ih (fun s' member => inPeriod s' (List.mem_cons_of_mem s member)) distinct
      fun s' member now => ?_
    rcases Finset.mem_insert.1 now with rfl | before
    · exact absent member
    · exact fresh s' (List.mem_cons_of_mem s member) before

end Steps

structure SameContents (w w' : Ledger σ α ρ × Tally) : Prop where
  decided : w.1.decided.Alike w'.1.decided
  expected : w.1.expected.Alike w'.1.expected
  discount_eq : w.1.discount = w'.1.discount
  evaluations_eq : w.1.evaluations = w'.1.evaluations
  tally_eq : w.2 = w'.2

/-- Computations that succeed from the same contents alike, and leave the same contents then. -/
def Interchangeable (m m' : LedgerM σ α ρ Tally Unit) : Prop :=
  ∀ w w', SameContents w w' → ((m w).1 = .ok () ↔ (m' w').1 = .ok ()) ∧
    ((m w).1 = .ok () → SameContents (m w).2 (m' w').2)

theorem interchangeable_pure : Interchangeable (pure () : LedgerM σ α ρ Tally Unit) (pure ()) :=
  fun _ _ same => ⟨Iff.rfl, fun _ => same⟩

theorem Interchangeable.andThen {m m' n n' : LedgerM σ α ρ Tally Unit}
    (first : Interchangeable m m') (second : Interchangeable n n') :
    Interchangeable (do m; n) (do m'; n') := by
  intro w w' same
  obtain ⟨succeeds, reached⟩ := first w w' same
  rcases ran : m w with ⟨result, v⟩
  rcases ran' : m' w' with ⟨result', v'⟩
  rw [ran, ran'] at succeeds reached
  cases result with
  | error e =>
    cases result' with
    | error e' =>
      rw [bind_of_error ran, bind_of_error ran']
      exact ⟨⟨nofun, nofun⟩, nofun⟩
    | ok _ => cases succeeds.2 rfl
  | ok _ =>
    cases result' with
    | error e' => cases succeeds.1 rfl
    | ok _ =>
      rw [bind_of_ok ran, bind_of_ok ran']
      exact second v v' (reached rfl)

theorem SameContents.refl (w : Ledger σ α ρ × Tally) : SameContents w w :=
  ⟨fun _ => rfl, fun _ => rfl, rfl, rfl, rfl⟩

theorem SameContents.isSolved_eq {w w' : Ledger σ α ρ × Tally} (same : SameContents w w') (s : σ) :
    w.1.isSolved s = w'.1.isSolved s :=
  congrArg Option.isSome (same.decided s)

section Orders

variable [Scalar ρ] {P : Problem σ α ρ} {config : Config ρ} {spaces : List (StateSpace σ)}
  {t : Nat} {w w' : Ledger σ α ρ × Tally}

theorem SameContents.worthIn_eq (same : SameContents w w') (s : σ) (a : α) :
    worthIn P config spaces w.1 s a = worthIn P config spaces w'.1 s a := by
  have values : w.1.value = w'.1.value := by
    funext f
    rw [Ledger.value, Ledger.value, Ledger.decision?, Ledger.decision?, same.decided f]
  rw [worthIn, worthIn, Ledger.expected?, Ledger.expected?, same.expected (s, a),
    same.discount_eq, values]

theorem SameContents.verdict_eq (same : SameContents w w') (s : σ) :
    verdict P config spaces w.1 s = verdict P config spaces w'.1 s := by
  simp only [verdict, same.worthIn_eq]

-- What counts of two schedules is which states and pairs have been gone through.
theorem SameContents.of_progress {worked : Finset (σ × α)} {done : Finset σ}
    {v v' : Ledger σ α ρ × Tally} (same : SameContents w w')
    (progress : Progress P config spaces t w.1 w.2 worked done v)
    (progress' : Progress P config spaces t w'.1 w'.2 worked done v') : SameContents v v' := by
  have decided : v.1.decided.Alike v'.1.decided := by
    intro s
    have before : w.1.decision? s = w'.1.decision? s := same.decided s
    have now := progress.decided s
    rw [same.verdict_eq, before] at now
    exact now.trans (progress'.decided s).symm
  have expected : v.1.expected.Alike v'.1.expected := by
    rintro ⟨s, a⟩
    have before : w.1.expected? s a = w'.1.expected? s a := same.expected (s, a)
    have now := progress.expected s a
    rw [same.worthIn_eq, before] at now
    exact now.trans (progress'.expected s a).symm
  refine ⟨decided, expected, ?_, ?_, ?_⟩
  · rw [progress.discount_eq, progress'.discount_eq, same.discount_eq]
  · -- each new value was counted when it was entered
    have counted := progress.evaluations
    have counted' := progress'.evaluations
    rw [expected.size_eq, same.expected.size_eq, same.evaluations_eq] at counted
    omega
  · rw [progress.tally, progress'.tally, same.tally_eq]

theorem settlement_eq_ok_iff {l : Ledger σ α ρ} {turns : σ → List (α × Nat)} {s : σ}
    (perm : (turns s).Perm (P.actions s).zipIdx) :
    settlement P config spaces l turns s = .ok () ↔
      l.isSolved s = false ∧ ∃ d, verdict P config spaces l s = .ok d := by
  have comes : ∀ d, verdictInTurn P config spaces l s (turns s) = .ok d ↔
      verdict P config spaces l s = .ok d :=
    fun d => verdictInTurn_eq_ok_iff perm
  simp only [← comes]
  rw [settlement]
  cases verdictInTurn P config spaces l s (turns s) with
  | error e => exact ⟨nofun, fun both => nomatch both.2⟩
  | ok d =>
    change (if l.isSolved s then Except.error (SolveError.alreadySolved s) else .ok ()) = .ok () ↔ _
    cases l.isSolved s with
    | true => exact ⟨nofun, fun both => nomatch both.1⟩
    | false => exact ⟨fun _ => ⟨rfl, d, rfl⟩, fun _ => rfl⟩

theorem yields_solveScheduled (complete : Complete P config spaces) (below : t < config.horizon)
    (S : Schedule P (statesOf spaces t)) (w : Ledger σ α ρ × Tally) :
    ((solveScheduled config spaces S w).1 = .ok () ↔ ∀ s ∈ statesOf spaces t,
      w.1.isSolved s = false ∧ ∃ d, verdict P config spaces w.1 s = .ok d) ∧
    ((solveScheduled config spaces S w).1 = .ok () →
      Progress P config spaces t w.1 w.2 ((statesOf spaces t).toFinset.biUnion (pairsOf P))
        (statesOf spaces t).toFinset (solveScheduled config spaces S w).2) := by
  obtain ⟨space, -, orderly, states, -⟩ := complete.exists_space below.le
  have distinct : S.order.Nodup := by
    rw [S.perm_order.nodup_iff, states]
    exact orderly.distinct
  obtain ⟨given, reached⟩ := yields_forEach complete below S.perm_turns
    (fun s member => (complete.period_of_mem (S.perm_order.mem_iff.1 member)).1) distinct
    (fun s _ => Finset.notMem_empty s) w .beginning
  rw [Finset.empty_union, Finset.empty_union, List.toFinset_eq_of_perm _ _ S.perm_order] at reached
  rw [solveScheduled, given, forM_eq_ok_iff]
  refine ⟨?_, fun each => reached () (forM_eq_ok_iff.2 each)⟩
  simp only [settlement_eq_ok_iff (S.perm_turns _), S.perm_order.mem_iff]

theorem interchangeable_solveScheduled (complete : Complete P config spaces)
    (below : t < config.horizon) (S S' : Schedule P (statesOf spaces t)) :
    Interchangeable (solveScheduled config spaces S) (solveScheduled config spaces S') := by
  intro w w' same
  obtain ⟨succeeds, reached⟩ := yields_solveScheduled complete below S w
  obtain ⟨succeeds', reached'⟩ := yields_solveScheduled complete below S' w'
  have alike : (solveScheduled config spaces S w).1 = .ok () ↔
      (solveScheduled config spaces S' w').1 = .ok () := by
    rw [succeeds, succeeds']
    simp only [same.isSolved_eq, same.verdict_eq]
  exact ⟨alike, fun done => same.of_progress (reached done) (reached' (alike.1 done))⟩

def solveDownScheduled (P : Problem σ α ρ) (config : Config ρ) (spaces : List (StateSpace σ))
    (schedules : ∀ t, Schedule P (statesOf spaces t)) : Nat → LedgerM σ α ρ Tally Unit
  | 0 => pure ()
  | left + 1 => do
    solveDownScheduled P config spaces schedules left
    solveScheduled config spaces (schedules (config.horizon - (left + 1)))

theorem interchangeable_solveDown (complete : Complete P config spaces)
    (schedules : ∀ t, Schedule P (statesOf spaces t)) {left : Nat}
    (inside : left ≤ config.horizon) :
    Interchangeable (solveDown P config (spaces.drop (config.horizon - left)))
      (solveDownScheduled P config spaces schedules left) := by
  induction left with
  | zero =>
    obtain ⟨last, dropped⟩ := complete.drop_horizon
    rw [Nat.sub_zero, dropped]
    exact interchangeable_pure
  | succ left ih =>
    have below : config.horizon - (left + 1) < config.horizon := by omega
    rw [solveDown_eq_solveScheduled complete below, solveDownScheduled,
      show config.horizon - (left + 1) + 1 = config.horizon - left by omega]
    exact (ih (by omega)).andThen (interchangeable_solveScheduled complete below _ _)

/-- Once the later periods are decided, a pass decides the states of a period as they are listed.
Deciding them in any other order, with the actions of each evaluated in any turns before the best is
chosen in the order of the list, succeeds just when that does, and leaves the same decisions,
expected values and counts then. -/
theorem order_is_irrelevant [Hashable σ] [Hashable α] {b : Backward σ α ρ} (lawful : P.Lawful)
    (new : Backward.new P config = .ok b) (below : t < config.horizon) :
    let spaces := b.generateStates.spaces
    solveDown P config (spaces.drop t) = (do
      solveDown P config (spaces.drop (t + 1))
      solveScheduled config spaces (.listed P (statesOf spaces t))) ∧
    ∀ S S' : Schedule P (statesOf spaces t),
      Interchangeable (solveScheduled config spaces S) (solveScheduled config spaces S') := by
  obtain ⟨tally, generated⟩ := generateStates_of_new new
  rw [generated]
  have complete : Complete P config (generatedSpaces P config) :=
    complete_generatedSpaces lawful config
  exact ⟨solveDown_eq_solveScheduled complete below, interchangeable_solveScheduled complete below⟩

end Orders

def Schedule.reversed (P : Problem σ α ρ) (states : List σ) : Schedule P states :=
  ⟨states.reverse, fun s => (P.actions s).zipIdx.reverse, List.reverse_perm _,
    fun _ => List.reverse_perm _⟩

-- The two states before the last period of `Explicit.uneven`, one of them with two actions.
theorem order_is_irrelevant_uneven :
    let P : Problem Node Int Float := Explicit.uneven.problem
    let config : Config Float := .exact 2
    let spaces := (start P config).generateStates.spaces
    let w := (seedTerminal P spaces (.empty config.storage config.discount, .zero)).2
    let listed := solveScheduled config spaces (.listed P (statesOf spaces 1))
    let reversed := solveScheduled config spaces (.reversed P (statesOf spaces 1))
    statesOf spaces 1 = [⟨1, 0⟩, ⟨1, 1⟩] ∧ P.actions ⟨1, 1⟩ = [0, 1] ∧
      (listed w).1 = .ok () ∧ (reversed w).1 = .ok () ∧
        SameContents (listed w).2 (reversed w).2 := by
  intro P config spaces w listed reversed
  have interchangeable : Interchangeable listed reversed :=
    (order_is_irrelevant (t := 1) Explicit.uneven.lawful new_uneven (by decide)).2 _ _
  obtain ⟨succeeds, same⟩ := interchangeable w w (.refl w)
  have done : (listed w).1 = .ok () := eq_ok_of_toOption (by decide +kernel)
  exact ⟨by decide +kernel, by decide +kernel, done, succeeds.1 done, same done⟩

end Backward

end Horizon
