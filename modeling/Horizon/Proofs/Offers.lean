import Mathlib.Data.Int.CharZero
import Horizon.Proofs.Ranking

/-! What becomes of offers, whatever their values are.

A value that is not a number is turned away and leaves the champion as it is, so the champion is the
first of the best among the offers that are numbers (`champion_offerEach`). Every offer is judged by
the numbers before it, and two champions of the same offers, in whatever order they came, have equal
values.
-/

set_option autoImplicit false

namespace Horizon

section Binary64

open Float.Model

-- One case for each kind and sign of either number.
theorem unpacked_beq_iff (x y : UnpackedFloat) :
    x.beq y = true ↔ x.isNaN = false ∧ y.isNaN = false ∧ standing x = standing y := by
  rw [isNaN_eq, isNaN_eq]
  rcases x with ⟨_ | _⟩ | _ | ⟨_ | _⟩ | ⟨_ | _, m, e, _⟩ <;>
    rcases y with ⟨_ | _⟩ | _ | ⟨_ | _⟩ | ⟨_ | _, n, f, _⟩ <;>
    dsimp only [UnpackedFloat.beq, UnpackedFloat.compare, standing, UnpackedFloat.Sign.apply] <;>
    simp [Ordering.then_eq_eq]
  · rfl
  · rfl

theorem float_beq_of_not_lt {x y : Float} (left : Scalar.isNaN x = false)
    (right : Scalar.isNaN y = false) (notBelow : Scalar.lt x y = false)
    (notAbove : Scalar.lt y x = false) : (x == y) = true := by
  rw [← Bool.not_eq_true, float_lt_iff] at notBelow notAbove
  refine (unpacked_beq_iff _ _).2 ⟨left, right, ?_⟩
  simp only [left, right, true_and, Precedes] at notBelow notAbove
  ext <;> omega

end Binary64

variable {α ρ : Type} [Scalar ρ]

def numbers (offers : List (α × ρ)) : List (α × ρ) :=
  offers.filter fun c => !Scalar.isNaN c.2

@[simp] theorem mem_numbers {offers : List (α × ρ)} {c : α × ρ} :
    c ∈ numbers offers ↔ c ∈ offers ∧ Scalar.isNaN c.2 = false := by
  simp [numbers]

/-- A number that no offer is better than. -/
def Unbeaten (direction : Direction) (offers : List (α × ρ)) (value : ρ) : Prop :=
  Scalar.isNaN value = false ∧
    ∀ c ∈ offers, Scalar.isNaN c.2 = false → direction.improves c.2 value = false

/-- The first of the offers whose value is unbeaten. -/
def IsEarliestBest (direction : Direction) (offers : List (α × ρ)) (best : α × ρ) : Prop :=
  ∃ before after, offers = before ++ best :: after ∧ Unbeaten direction offers best.2 ∧
    ∀ c ∈ before, ¬Unbeaten direction offers c.2

theorem IsEarliestBest.mem {direction : Direction} {offers : List (α × ρ)} {best : α × ρ}
    (earliest : IsEarliestBest direction offers best) : best ∈ offers := by
  obtain ⟨before, after, rfl, -⟩ := earliest
  simp

theorem IsEarliestBest.unbeaten {direction : Direction} {offers : List (α × ρ)} {best : α × ρ}
    (earliest : IsEarliestBest direction offers best) : Unbeaten direction offers best.2 := by
  obtain ⟨before, after, -, unbeaten, -⟩ := earliest
  exact unbeaten

theorem IsEarliestBest.unique {direction : Direction} {offers : List (α × ρ)} {first second : α × ρ}
    (left : IsEarliestBest direction offers first)
    (right : IsEarliestBest direction offers second) : first = second := by
  obtain ⟨before, after, split, unbeaten, earlier⟩ := left
  obtain ⟨before', after', split', unbeaten', earlier'⟩ := right
  -- the one that comes later has the other before it
  rcases List.append_eq_append_iff.1 (split.symm.trans split') with
    ⟨between, same, rest⟩ | ⟨between, same, rest⟩
  · cases between with
    | nil => simpa using (List.cons.inj rest).1
    | cons c more =>
      obtain rfl : first = c := (List.cons.inj rest).1
      exact absurd unbeaten (earlier' first (by simp [same]))
  · cases between with
    | nil => simpa using (List.cons.inj rest).1.symm
    | cons c more =>
      obtain rfl : second = c := (List.cons.inj rest).1
      exact absurd unbeaten' (earlier second (by simp [same]))

theorem isEarliestBest_of_isFirstBest [Scalar.Ranked ρ] {direction : Direction}
    {offers : List (α × ρ)} {best : α × ρ}
    (first : IsFirstBest direction (numbers offers) best) :
    IsEarliestBest direction offers best := by
  have unbeaten : Unbeaten direction offers best.2 :=
    ⟨(mem_numbers.1 first.mem).2, fun c member number =>
      first.unbeaten (mem_numbers.2 ⟨member, number⟩)⟩
  have listed := (mem_numbers.1 first.mem).1
  obtain ⟨before, after, split, smaller, -⟩ := first
  obtain ⟨before', after', rfl, passed, rest⟩ := List.filter_eq_append_iff.1 split
  obtain ⟨skipped, after'', rfl, refused, number, -⟩ := List.filter_eq_cons_iff.1 rest
  refine ⟨before' ++ skipped, after'', by simp, unbeaten, fun c member better => ?_⟩
  rcases List.mem_append.1 member with early | late
  · have worse := smaller c (by simp [← passed, early, better.1])
    simp [better.2 best listed unbeaten.1] at worse
  · simpa [better.1] using refused c late

theorem firstBest_numbers_eq_some_iff [Scalar.Ranked ρ] {direction : Direction}
    {offers : List (α × ρ)} {best : α × ρ} :
    firstBest direction (numbers offers) = some best ↔ IsEarliestBest direction offers best := by
  have earliest : ∀ b, firstBest direction (numbers offers) = some b →
      IsEarliestBest direction offers b := fun b found =>
    isEarliestBest_of_isFirstBest (isFirstBest_of_firstBest (by simp) found)
  refine ⟨earliest best, fun isBest => ?_⟩
  have listed : best ∈ numbers offers := mem_numbers.2 ⟨isBest.mem, isBest.unbeaten.1⟩
  cases found : firstBest direction (numbers offers) with
  | none => simp [firstBest_eq_none.1 found] at listed
  | some b => rw [(earliest b found).unique isBest]

namespace Champion

def offerEach (champion : Champion α ρ) : List (α × ρ) → List Verdict × Champion α ρ
  | [] => ([], champion)
  | c :: rest =>
    let (verdict, champion) := champion.offer c.1 c.2
    let (verdicts, champion) := champion.offerEach rest
    (verdict :: verdicts, champion)

theorem offerEach_append (champion : Champion α ρ) (first second : List (α × ρ)) :
    champion.offerEach (first ++ second) =
      ((champion.offerEach first).1 ++ ((champion.offerEach first).2.offerEach second).1,
        ((champion.offerEach first).2.offerEach second).2) := by
  induction first generalizing champion with
  | nil => rfl
  | cons c rest ih => simp [offerEach, ih]

theorem length_verdicts (champion : Champion α ρ) (offers : List (α × ρ)) :
    (champion.offerEach offers).1.length = offers.length := by
  induction offers generalizing champion with
  | nil => rfl
  | cons c rest ih => simp [offerEach, ih]

theorem offer_notNumber (champion : Champion α ρ) {c : α × ρ} (refused : Scalar.isNaN c.2 = true) :
    champion.offer c.1 c.2 = (.notNumber, champion) := by
  simp [offer, refused]

theorem offerAll_numbers (champion : Champion α ρ) (offers : List (α × ρ)) :
    champion.offerAll (numbers offers) = .ok (champion.offerEach offers).2 := by
  induction offers generalizing champion with
  | nil => rfl
  | cons c rest ih =>
    by_cases refused : Scalar.isNaN c.2 = true
    · have dropped : numbers (c :: rest) = numbers rest := by simp [numbers, refused]
      rw [dropped, ih, offerEach, offer_notNumber champion refused]
    · have number : Scalar.isNaN c.2 = false := by simpa using refused
      have kept : numbers (c :: rest) = c :: numbers rest := by simp [numbers, number]
      rw [kept, offerAll, offerEach]
      split
      · next offered =>
        exact absurd (congrArg Prod.fst offered) (champion.offer_number c number).1
      · next offered => rw [offered, ih]

variable [Scalar.Ranked ρ]

theorem champion_offerEach (direction : Direction) (offers : List (α × ρ)) :
    ((vacant direction).offerEach offers).2 =
      ⟨direction, firstBest direction (numbers offers)⟩ := by
  have offered := offerAll_numbers (vacant direction) offers
  rw [offerAll_eq_firstBest _ _ (by simp)] at offered
  exact (Except.ok.inj offered).symm

theorem best_eq_some_iff {direction : Direction} {offers : List (α × ρ)} {best : α × ρ} :
    ((vacant direction).offerEach offers).2.best = some best ↔
      IsEarliestBest direction offers best := by
  rw [champion_offerEach, firstBest_numbers_eq_some_iff]

theorem best_eq_none_iff {direction : Direction} {offers : List (α × ρ)} :
    ((vacant direction).offerEach offers).2.best = none ↔
      ∀ c ∈ offers, Scalar.isNaN c.2 = true := by
  rw [champion_offerEach, firstBest_eq_none, numbers, List.filter_eq_nil_iff]
  simp

-- What improves on the best number so far improves on all of them.
theorem fst_offer_eq_won_iff (direction : Direction) (before : List (α × ρ)) (c : α × ρ) :
    (((vacant direction).offerEach before).2.offer c.1 c.2).1 = .won ↔
      Scalar.isNaN c.2 = false ∧
        ∀ d ∈ before, Scalar.isNaN d.2 = false → direction.improves c.2 d.2 = true := by
  rw [champion_offerEach, offer]
  cases number : Scalar.isNaN c.2 with
  | true => simp
  | false =>
    cases held : firstBest direction (numbers before) with
    | none =>
      have empty : ∀ d ∈ before, Scalar.isNaN d.2 = true := by
        simpa [numbers] using firstBest_eq_none.1 held
      simp only [Bool.false_eq_true, if_false, true_and, true_iff]
      intro d member isNumber
      simp [empty d member] at isNumber
    | some best =>
      have isBest := firstBest_numbers_eq_some_iff.1 held
      simp only [Bool.false_eq_true, if_false, true_and]
      split
      · next better =>
        simp only [true_iff]
        intro d member isNumber
        rcases direction.improves_split _ d.2 _ isNumber better with beats | yields
        · exact beats
        · simp [isBest.unbeaten.2 d member isNumber] at yields
      · next worse =>
        simp only [reduceCtorEq, false_iff]
        exact fun all => worse (all best isBest.mem isBest.unbeaten.1)

omit [Scalar.Ranked ρ] in
theorem fst_offer_eq_notNumber_iff (champion : Champion α ρ) (c : α × ρ) :
    (champion.offer c.1 c.2).1 = .notNumber ↔ Scalar.isNaN c.2 = true := by
  cases number : Scalar.isNaN c.2 with
  | true => simp [offer_notNumber champion number]
  | false => simpa using (champion.offer_number c number).1

theorem fst_offer_eq_lost_iff (direction : Direction) (before : List (α × ρ)) (c : α × ρ) :
    (((vacant direction).offerEach before).2.offer c.1 c.2).1 = .lost ↔
      Scalar.isNaN c.2 = false ∧
        ∃ d ∈ before, Scalar.isNaN d.2 = false ∧ direction.improves c.2 d.2 = false := by
  have won := fst_offer_eq_won_iff direction before c
  have refused := fst_offer_eq_notNumber_iff ((vacant direction).offerEach before).2 c
  cases verdict : (((vacant direction).offerEach before).2.offer c.1 c.2).1 with
  | won => grind
  | lost => grind
  | notNumber => grind

omit [Scalar.Ranked ρ] in
theorem getElem?_verdicts (champion : Champion α ρ) (before after : List (α × ρ)) (c : α × ρ) :
    (champion.offerEach (before ++ c :: after)).1[before.length]? =
      some ((champion.offerEach before).2.offer c.1 c.2).1 := by
  rw [offerEach_append, List.getElem?_append_right (by simp [length_verdicts])]
  simp [length_verdicts, offerEach]

omit [Scalar.Ranked ρ] in
-- Each of the two is unbeaten among the offers that the other one comes from.
theorem tied_of_perm {direction : Direction} {offers offers' : List (α × ρ)} {best best' : α × ρ}
    (same : offers.Perm offers') (isBest : IsEarliestBest direction offers best)
    (isBest' : IsEarliestBest direction offers' best') :
    Scalar.lt best.2 best'.2 = false ∧ Scalar.lt best'.2 best.2 = false := by
  have notBetter := isBest'.unbeaten.2 best (same.mem_iff.1 isBest.mem) isBest.unbeaten.1
  have notWorse := isBest.unbeaten.2 best' (same.mem_iff.2 isBest'.mem) isBest'.unbeaten.1
  cases direction with
  | minimize => exact ⟨notBetter, notWorse⟩
  | maximize => exact ⟨notWorse, notBetter⟩

theorem exists_best_of_perm {direction : Direction} {offers offers' : List (α × ρ)}
    (same : offers.Perm offers') {best : α × ρ} (isBest : IsEarliestBest direction offers best) :
    ∃ best', ((vacant direction).offerEach offers').2.best = some best' := by
  rw [← Option.isSome_iff_exists, Option.isSome_iff_ne_none, Ne, best_eq_none_iff]
  intro none
  have number := isBest.unbeaten.1
  simp [none best (same.mem_iff.1 isBest.mem)] at number

/-- Whatever is offered to a champion, the first of the best numbers is what it holds, and nothing
when there is no number. An offer wins when it is strictly better than all numbers before it, loses
when it is a number and one before it is as good, and is turned away, with the champion left as it
was, when it is not a number. In any other order the offers leave an equal value. -/
theorem earliest_best_stays {α : Type} (direction : Direction) (offers : List (α × Float)) :
    let outcome := (vacant direction).offerEach offers
    (∀ best, outcome.2.best = some best ↔ IsEarliestBest direction offers best) ∧
      (outcome.2.best = none ↔ ∀ c ∈ offers, Scalar.isNaN c.2 = true) ∧
      outcome.1.length = offers.length ∧
      (∀ before c after, offers = before ++ c :: after →
        ∃ verdict, outcome.1[before.length]? = some verdict ∧
          (verdict = .won ↔ Scalar.isNaN c.2 = false ∧
            ∀ d ∈ before, Scalar.isNaN d.2 = false → direction.improves c.2 d.2 = true) ∧
          (verdict = .lost ↔ Scalar.isNaN c.2 = false ∧
            ∃ d ∈ before, Scalar.isNaN d.2 = false ∧ direction.improves c.2 d.2 = false) ∧
          (verdict = .notNumber ↔ Scalar.isNaN c.2 = true) ∧
          (Scalar.isNaN c.2 = true → ((vacant direction).offerEach (before ++ [c])).2 =
            ((vacant direction).offerEach before).2)) ∧
      ∀ offers', offers.Perm offers' →
        Option.Rel (fun best best' => (best.2 == best'.2) = true) outcome.2.best
          ((vacant direction).offerEach offers').2.best := by
  intro outcome
  refine ⟨fun _ => best_eq_some_iff, best_eq_none_iff, length_verdicts _ _, ?_, ?_⟩
  · rintro before c after rfl
    refine ⟨_, getElem?_verdicts _ before after c, fst_offer_eq_won_iff direction before c,
      fst_offer_eq_lost_iff direction before c, fst_offer_eq_notNumber_iff _ c, fun refused => ?_⟩
    rw [offerEach_append, offerEach, offer_notNumber _ refused]
    rfl
  · intro offers' same
    cases held : outcome.2.best with
    | none =>
      have empty := best_eq_none_iff.1 held
      rw [best_eq_none_iff.2 fun c member => empty c (same.mem_iff.2 member)]
      exact .none
    | some best =>
      have isBest := best_eq_some_iff.1 held
      obtain ⟨best', held'⟩ := exists_best_of_perm same isBest
      have isBest' := best_eq_some_iff.1 held'
      rw [held']
      obtain ⟨notBelow, notAbove⟩ := tied_of_perm same isBest isBest'
      exact .some (float_beq_of_not_lt isBest.unbeaten.1 isBest'.unbeaten.1 notBelow notAbove)

end Champion

end Horizon
