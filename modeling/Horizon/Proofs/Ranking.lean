import Horizon.Ledger

/-! Which of several candidates is the best.

Scalars are ranked when their comparison is a strict weak order once the elements that are not
numbers are set aside; binary64 numbers are. Offering candidates one after the other then leaves
the first of the best ones (`offerAll_eq_firstBest`), which `choose` turns into a decision.
-/

set_option autoImplicit false

namespace Horizon

/-- The comparison is a strict weak order on the elements that are numbers. -/
class Scalar.Ranked (ρ : Type) [Scalar ρ] : Prop where
  irrefl : ∀ x : ρ, Scalar.lt x x = false
  trans : ∀ x y z : ρ, Scalar.lt x y = true → Scalar.lt y z = true → Scalar.lt x z = true
  split : ∀ x y z : ρ, Scalar.isNaN y = false → Scalar.lt x z = true →
    Scalar.lt x y = true ∨ Scalar.lt y z = true

section Binary64

open Float.Model

/-- Where a number stands in the order: its kind, its exponent and its significand, all of them
negated below zero. -/
def standing : UnpackedFloat → Int × Int × Int
  | .infinity sign => (sign.apply 2, 0, 0)
  | .finite sign significand exponent _ =>
    (sign.apply 1, sign.apply exponent, sign.apply significand)
  | .zero _ => (0, 0, 0)
  | .notANumber => (0, 0, 0)

def Precedes (p q : Int × Int × Int) : Prop :=
  p.1 < q.1 ∨ p.1 = q.1 ∧ (p.2.1 < q.2.1 ∨ p.2.1 = q.2.1 ∧ p.2.2 < q.2.2)

theorem then_eq_lt_iff (e f : Int) (m n : Nat) :
    (compare e f).then (compare m n) = .lt ↔ e < f ∨ e = f ∧ m < n := by
  rw [Ordering.then_eq_lt, Int.compare_eq_lt, Int.compare_eq_eq, Nat.compare_eq_lt]

theorem then_eq_gt_iff (e f : Int) (m n : Nat) :
    (compare e f).then (compare m n) = .gt ↔ f < e ∨ e = f ∧ n < m := by
  rw [Ordering.then_eq_gt, Int.compare_eq_gt, Int.compare_eq_eq, Nat.compare_eq_gt]

theorem isNaN_eq (x : UnpackedFloat) :
    x.isNaN = match x with
      | .notANumber => true
      | _ => false :=
  rfl

-- One case for each kind and sign of either number.
theorem unpacked_lt_iff (x y : UnpackedFloat) :
    x.lt y = true ↔ x.isNaN = false ∧ y.isNaN = false ∧ Precedes (standing x) (standing y) := by
  rw [isNaN_eq, isNaN_eq]
  rcases x with ⟨_ | _⟩ | _ | ⟨_ | _⟩ | ⟨_ | _, m, e, _⟩ <;>
    rcases y with ⟨_ | _⟩ | _ | ⟨_ | _⟩ | ⟨_ | _, n, f, _⟩ <;>
    dsimp only [UnpackedFloat.lt, UnpackedFloat.compare, standing, Precedes,
      UnpackedFloat.Sign.apply] <;>
    simp [then_eq_lt_iff, then_eq_gt_iff]
  rfl

theorem float_lt_iff (x y : Float) :
    Scalar.lt x y = true ↔ Scalar.isNaN x = false ∧ Scalar.isNaN y = false ∧
      Precedes (standing x.toModel.unpack) (standing y.toModel.unpack) := by
  have numbers : ∀ z : Float, Scalar.isNaN z = z.toModel.unpack.isNaN := fun _ => rfl
  rw [numbers, numbers, ← unpacked_lt_iff]
  exact decide_eq_true_iff

instance : Scalar.Ranked Float where
  irrefl x := by
    rw [Bool.eq_false_iff]
    intro less
    have := (float_lt_iff x x).1 less
    simp [Precedes] at this
  trans x y z first second := by
    rw [float_lt_iff] at first second ⊢
    refine ⟨first.1, second.2.1, ?_⟩
    have below := first.2.2
    have above := second.2.2
    simp only [Precedes] at below above ⊢
    omega
  split x y z number less := by
    rw [float_lt_iff] at less ⊢
    rw [float_lt_iff]
    obtain ⟨left, right, order⟩ := less
    simp only [Precedes, left, right, number, true_and] at order ⊢
    omega

end Binary64

namespace Direction

variable {ρ : Type} [Scalar ρ] [Scalar.Ranked ρ]

theorem improves_irrefl (direction : Direction) (x : ρ) : direction.improves x x = false := by
  cases direction <;> exact Scalar.Ranked.irrefl x

theorem improves_trans (direction : Direction) (x y z : ρ) (first : direction.improves x y = true)
    (second : direction.improves y z = true) : direction.improves x z = true := by
  cases direction with
  | minimize => exact Scalar.Ranked.trans x y z first second
  | maximize => exact Scalar.Ranked.trans z y x second first

theorem improves_split (direction : Direction) (x y z : ρ) (number : Scalar.isNaN y = false)
    (better : direction.improves x z = true) :
    direction.improves x y = true ∨ direction.improves y z = true := by
  cases direction with
  | minimize => exact Scalar.Ranked.split x y z number better
  | maximize => exact (Scalar.Ranked.split z y x number better).symm

theorem not_improves_trans (direction : Direction) (x y z : ρ) (number : Scalar.isNaN y = false)
    (first : direction.improves x y = false) (second : direction.improves y z = false) :
    direction.improves x z = false := by
  rw [Bool.eq_false_iff]
  intro better
  rcases direction.improves_split x y z number better with overFirst | overSecond
  · rw [first] at overFirst
    cases overFirst
  · rw [second] at overSecond
    cases overSecond

end Direction

variable {α ρ : Type} [Scalar ρ]

def firstBest (direction : Direction) : List (α × ρ) → Option (α × ρ)
  | [] => none
  | c :: rest =>
    match firstBest direction rest with
    | some later => if direction.improves later.2 c.2 then some later else some c
    | none => some c

def IsFirstBest (direction : Direction) (candidates : List (α × ρ)) (best : α × ρ) : Prop :=
  ∃ before after, candidates = before ++ best :: after ∧
    (∀ c ∈ before, direction.improves best.2 c.2 = true) ∧
    ∀ c ∈ after, direction.improves c.2 best.2 = false

theorem firstBest_isSome (direction : Direction) (c : α × ρ) (rest : List (α × ρ)) :
    ∃ best, firstBest direction (c :: rest) = some best := by
  unfold firstBest
  split
  · split <;> exact ⟨_, rfl⟩
  · exact ⟨_, rfl⟩

theorem firstBest_eq_none {direction : Direction} {candidates : List (α × ρ)} :
    firstBest direction candidates = none ↔ candidates = [] := by
  cases candidates with
  | nil => simp [firstBest]
  | cons c rest =>
    obtain ⟨best, found⟩ := firstBest_isSome direction c rest
    simp [found]

theorem IsFirstBest.mem {direction : Direction} {candidates : List (α × ρ)} {best : α × ρ}
    (first : IsFirstBest direction candidates best) : best ∈ candidates := by
  obtain ⟨before, after, rfl, -, -⟩ := first
  simp

namespace Champion

theorem offer_number (champion : Champion α ρ) (c : α × ρ) (number : Scalar.isNaN c.2 = false) :
    (champion.offer c.1 c.2).1 ≠ .notNumber ∧
      (champion.offer c.1 c.2).2 = ⟨champion.direction, some
        (match champion.best with
        | some held => if champion.direction.improves c.2 held.2 then c else held
        | none => c)⟩ := by
  obtain ⟨direction, best⟩ := champion
  rw [offer, number]
  cases best with
  | none => exact ⟨nofun, rfl⟩
  | some held =>
    simp only [Bool.false_eq_true, if_false]
    split <;> exact ⟨nofun, rfl⟩

theorem numbers_of_offerAll {champion result : Champion α ρ} {candidates : List (α × ρ)}
    (done : champion.offerAll candidates = .ok result) :
    ∀ c ∈ candidates, Scalar.isNaN c.2 = false := by
  induction candidates generalizing champion with
  | nil => exact fun c member => absurd member List.not_mem_nil
  | cons c rest ih =>
    unfold offerAll at done
    split at done
    · cases done
    · next verdict next accepted offered =>
      intro d member
      rcases List.mem_cons.1 member with rfl | member
      · rw [Bool.eq_false_iff]
        intro refused
        rw [offer, if_pos refused] at offered
        cases offered
        exact accepted rfl
      · exact ih done d member

end Champion

variable [Scalar.Ranked ρ]

-- No candidate is better than the first best one.
theorem IsFirstBest.unbeaten {direction : Direction} {candidates : List (α × ρ)} {best : α × ρ}
    (first : IsFirstBest direction candidates best) {c : α × ρ} (member : c ∈ candidates) :
    direction.improves c.2 best.2 = false := by
  obtain ⟨before, after, rfl, smaller, larger⟩ := first
  rcases List.mem_append.1 member with inBefore | inAfter
  · rw [Bool.eq_false_iff]
    intro better
    have cycle := direction.improves_trans _ _ _ better (smaller c inBefore)
    rw [direction.improves_irrefl] at cycle
    cases cycle
  · rcases List.mem_cons.1 inAfter with rfl | inAfter
    · exact direction.improves_irrefl _
    · exact larger c inAfter

theorem isFirstBest_of_firstBest {direction : Direction} {candidates : List (α × ρ)}
    {best : α × ρ} (numbers : ∀ c ∈ candidates, Scalar.isNaN c.2 = false)
    (found : firstBest direction candidates = some best) :
    IsFirstBest direction candidates best := by
  induction candidates generalizing best with
  | nil => cases found
  | cons c rest ih =>
    have later : ∀ b, firstBest direction rest = some b → IsFirstBest direction rest b :=
      fun b => ih fun d member => numbers d (List.mem_cons_of_mem c member)
    unfold firstBest at found
    cases held : firstBest direction rest with
    | none =>
      rw [held] at found
      cases found
      rw [firstBest_eq_none] at held
      subst held
      exact ⟨[], [], rfl, fun d member => absurd member List.not_mem_nil,
        fun d member => absurd member List.not_mem_nil⟩
    | some b =>
      simp only [held] at found
      split at found
      · next better =>
        cases found
        obtain ⟨before, after, rfl, smaller, larger⟩ := later best held
        refine ⟨c :: before, after, rfl, fun d member => ?_, larger⟩
        rcases List.mem_cons.1 member with rfl | member
        · exact better
        · exact smaller d member
      · next worse =>
        cases found
        refine ⟨[], rest, rfl, fun d member => absurd member List.not_mem_nil, fun d member => ?_⟩
        -- what improves on `c` would improve on `b`, or `b` on `c`
        rw [Bool.eq_false_iff]
        intro better
        have number := numbers b (List.mem_cons_of_mem c (later b held).mem)
        rcases direction.improves_split _ b.2 _ number better with overBest | overFirst
        · rw [(later b held).unbeaten member] at overBest
          cases overBest
        · exact worse overFirst

-- Two candidates in a row give the same best one as the better of them alone.
theorem firstBest_cons_cons (direction : Direction) (c d : α × ρ) (rest : List (α × ρ))
    (number : Scalar.isNaN d.2 = false) :
    firstBest direction (c :: d :: rest) =
      firstBest direction ((if direction.improves d.2 c.2 then d else c) :: rest) := by
  simp only [firstBest]
  cases firstBest direction rest with
  | none => by_cases better : direction.improves d.2 c.2 = true <;> simp [better]
  | some b =>
    by_cases later : direction.improves b.2 d.2 = true
    · by_cases better : direction.improves d.2 c.2 = true
      · have passed := direction.improves_trans _ _ _ later better
        simp [later, better, passed]
      · simp [later, better]
    · by_cases better : direction.improves d.2 c.2 = true
      · simp [later, better]
      · have under : direction.improves b.2 c.2 = false := by
          rw [Bool.eq_false_iff]
          intro passed
          rcases direction.improves_split _ d.2 _ number passed with first | second
          · exact later first
          · exact better second
        simp [later, better, under]

namespace Champion

-- The best candidate so far counts as one in front of the rest; a new one is merged with it.
theorem offerAll_eq_firstBest (champion : Champion α ρ) (candidates : List (α × ρ))
    (numbers : ∀ c ∈ candidates, Scalar.isNaN c.2 = false) :
    champion.offerAll candidates =
      .ok ⟨champion.direction,
        firstBest champion.direction (champion.best.toList ++ candidates)⟩ := by
  induction candidates generalizing champion with
  | nil =>
    obtain ⟨direction, best⟩ := champion
    cases best <;> rfl
  | cons c rest ih =>
    have number := numbers c List.mem_cons_self
    have offered := offer_number champion c number
    have taken : champion.offerAll (c :: rest) = (champion.offer c.1 c.2).2.offerAll rest := by
      rw [offerAll]
      split
      · next refused => exact absurd (congrArg Prod.fst refused) offered.1
      · next held => rw [held]
    rw [taken, ih _ fun d member => numbers d (List.mem_cons_of_mem c member), offered.2]
    cases held : champion.best with
    | none => rfl
    | some before =>
      simp only [Option.toList_some, List.cons_append, List.nil_append]
      rw [firstBest_cons_cons _ _ _ _ number]

end Champion

theorem LedgerM.choose_eq_ok_iff {σ : Type} {direction : Direction} {s : σ}
    {candidates : List (α × ρ)} {d : Decision α ρ} :
    choose direction s candidates = .ok d ↔
      (∀ c ∈ candidates, Scalar.isNaN c.2 = false) ∧
        ∃ best, firstBest direction candidates = some best ∧ d = ⟨best.2, some best.1⟩ := by
  constructor
  · intro done
    have numbers : ∀ c ∈ candidates, Scalar.isNaN c.2 = false := by
      unfold choose at done
      split at done
      · cases done
      · next offered => exact Champion.numbers_of_offerAll offered
    refine ⟨numbers, ?_⟩
    rw [choose, Champion.offerAll_eq_firstBest _ _ numbers] at done
    simp only [Champion.vacant, Option.toList_none, List.nil_append] at done
    split at done
    · next a value found =>
      cases done
      exact ⟨(a, value), found, rfl⟩
    · cases done
  · rintro ⟨numbers, best, found, rfl⟩
    rw [choose, Champion.offerAll_eq_firstBest _ _ numbers]
    simp only [Champion.vacant, Option.toList_none, List.nil_append, found]

end Horizon
