import Mathlib.Data.List.Nodup
import Mathlib.Order.Bounds.Basic
import Horizon.Proofs.ReorderPolicy

/-! The policy of any table.

A policy is read off the rows in which something is ordered: its reorder point is the greatest of
their inventories, and where it orders up to is told by the first row with the least inventory
(`reads_of_ofTable?`). So rows without an order do not matter, nor does the order of the rows when
no inventory occurs twice (`ofTable?_of_perm`), and a table that is made from a policy gives it back
(`ofTable?_of_follows`).
-/

set_option autoImplicit false

namespace Horizon.ReorderPolicy

variable {ρ : Type} {table table' : List (PolicyEntry Level Order ρ)}

def Orders (row : PolicyEntry Level Order ρ) : Prop :=
  ∃ o, row.action = some o ∧ 0 < o.quantity

theorem placed?_eq_some_iff {row : PolicyEntry Level Order ρ} {e : Level × Order} :
    placed? row = some e ↔ row.state = e.1 ∧ row.action = some e.2 ∧ 0 < e.2.quantity := by
  obtain ⟨level, o⟩ := e
  rw [placed?]
  cases row.action with
  | none => simp
  | some o' =>
    by_cases positive : 0 < o'.quantity
    · simp only [Order.isPositive, positive, decide_true, if_true, Option.some.injEq, Prod.mk.injEq]
      constructor
      · rintro ⟨rfl, rfl⟩
        exact ⟨rfl, rfl, positive⟩
      · rintro ⟨rfl, rfl, -⟩
        exact ⟨rfl, rfl⟩
    · simp only [Order.isPositive, positive, decide_false, Bool.false_eq_true, if_false,
        reduceCtorEq, Option.some.injEq, false_iff]
      rintro ⟨-, rfl, positive'⟩
      exact positive positive'

theorem isSome_placed?_iff {row : PolicyEntry Level Order ρ} :
    (placed? row).isSome = true ↔ Orders row := by
  rw [Option.isSome_iff_exists]
  constructor
  · rintro ⟨e, placed⟩
    obtain ⟨-, action, positive⟩ := placed?_eq_some_iff.1 placed
    exact ⟨e.2, action, positive⟩
  · rintro ⟨o, action, positive⟩
    exact ⟨(row.state, o), placed?_eq_some_iff.2 ⟨rfl, action, positive⟩⟩

instance : DecidablePred (Orders (ρ := ρ)) := fun _ =>
  decidable_of_iff _ isSome_placed?_iff

theorem placed?_eq_none_iff {row : PolicyEntry Level Order ρ} :
    placed? row = none ↔ ¬Orders row := by
  rw [← isSome_placed?_iff, Option.not_isSome_iff_eq_none]

def ofPlaced? : List (Level × Order) → Option ReorderPolicy
  | [] => none
  | first :: rest =>
    let (level, order) := lowest first rest
    some ⟨level.period, highest first.1.inventory rest, level.inventory + order.quantity⟩

theorem ofTable?_eq (table : List (PolicyEntry Level Order ρ)) :
    ofTable? table = ofPlaced? (table.filterMap placed?) := by
  rw [ofTable?]
  cases table.filterMap placed? <;> rfl

theorem ofTable?_eq_none_iff : ofTable? table = none ↔ ∀ row ∈ table, ¬Orders row := by
  simp only [← placed?_eq_none_iff, ← List.filterMap_eq_nil_iff]
  rw [ofTable?_eq]
  cases table.filterMap placed? <;> simp [ofPlaced?]

def FirstLeast {β : Type} (key : β → Int) (x : β) (xs : List β) : Prop :=
  ∃ front back, xs = front ++ x :: back ∧ (∀ y ∈ front, key x < key y) ∧ ∀ y ∈ back, key x ≤ key y

namespace FirstLeast

variable {β : Type} {key : β → Int} {x y z : β} {xs : List β}

theorem mem (least : FirstLeast key x xs) : x ∈ xs := by
  obtain ⟨front, back, rfl, -⟩ := least
  exact List.mem_append_right front List.mem_cons_self

theorem le (least : FirstLeast key x xs) (member : y ∈ xs) : key x ≤ key y := by
  obtain ⟨front, back, rfl, before, behind⟩ := least
  rcases List.mem_append.1 member with first | later
  · exact (before y first).le
  · rcases List.mem_cons.1 later with rfl | last
    · exact le_rfl
    · exact behind y last

theorem cons (least : FirstLeast key x xs) (above : key x < key y) :
    FirstLeast key x (y :: xs) := by
  obtain ⟨front, back, rfl, before, behind⟩ := least
  exact ⟨y :: front, back, rfl, List.forall_mem_cons.2 ⟨above, before⟩, behind⟩

theorem insert (least : FirstLeast key x (y :: xs)) (above : key y ≤ key z) :
    FirstLeast key x (y :: z :: xs) := by
  obtain ⟨front, back, split, before, behind⟩ := least
  cases front with
  | nil =>
    obtain ⟨rfl, rfl⟩ := List.cons.inj split
    exact ⟨[], z :: xs, rfl, before, List.forall_mem_cons.2 ⟨above, behind⟩⟩
  | cons first front =>
    obtain ⟨rfl, rfl⟩ := List.cons.inj split
    obtain ⟨less, before⟩ := List.forall_mem_cons.1 before
    refine ⟨y :: z :: front, back, rfl, ?_, behind⟩
    exact List.forall_mem_cons.2 ⟨less, List.forall_mem_cons.2 ⟨less.trans_le above, before⟩⟩

end FirstLeast

theorem firstLeast_lowest (best : Level × Order) (rows : List (Level × Order)) :
    FirstLeast (·.1.inventory) (lowest best rows) (best :: rows) := by
  induction rows generalizing best with
  | nil => exact ⟨[], [], rfl, by simp, by simp⟩
  | cons row rest ih =>
    rw [lowest]
    split
    · next below => exact (ih row).cons (((ih row).le List.mem_cons_self).trans_lt below)
    · next above => exact (ih best).insert (not_lt.1 above)

def ordering (table : List (PolicyEntry Level Order ρ)) : List (PolicyEntry Level Order ρ) :=
  table.filter fun row => decide (Orders row)

theorem mem_ordering {row : PolicyEntry Level Order ρ} :
    row ∈ ordering table ↔ row ∈ table ∧ Orders row := by
  rw [ordering, List.mem_filter, decide_eq_true_iff]

/-- What a policy says of the rows in which something is ordered. -/
structure Reads (table : List (PolicyEntry Level Order ρ)) (policy : ReorderPolicy) : Prop where
  reorderPoint : IsGreatest {x | ∃ row ∈ ordering table, row.state.inventory = x}
    policy.reorderPoint
  orderUpTo : ∃ row o, FirstLeast (·.state.inventory) row (ordering table) ∧
    row.action = some o ∧ policy.period = row.state.period ∧
    policy.orderUpTo = row.state.inventory + o.quantity

theorem filterMap_ordering (table : List (PolicyEntry Level Order ρ)) :
    (ordering table).filterMap placed? = table.filterMap placed? := by
  rw [ordering, List.filterMap_filter]
  refine List.filterMap_congr fun row _ => ?_
  by_cases ordered : Orders row
  · simp [ordered]
  · simp [ordered, placed?_eq_none_iff.2 ordered]

theorem mem_placed_iff {e : Level × Order} : e ∈ table.filterMap placed? ↔
    ∃ row ∈ ordering table, placed? row = some e := by
  rw [← filterMap_ordering, List.mem_filterMap]

theorem inventory_of_placed {row : PolicyEntry Level Order ρ} {e : Level × Order}
    (placed : placed? row = some e) : row.state.inventory = e.1.inventory := by
  rw [(placed?_eq_some_iff.1 placed).1]

theorem exists_placed {row : PolicyEntry Level Order ρ} (listed : row ∈ ordering table) :
    ∃ e, placed? row = some e :=
  Option.isSome_iff_exists.1 (isSome_placed?_iff.2 (mem_ordering.1 listed).2)

-- Every row in which something is ordered gives one of the orders, in the same place.
theorem firstLeast_of_placed {e : Level × Order}
    (least : FirstLeast (·.1.inventory) e (table.filterMap placed?)) :
    ∃ row, FirstLeast (·.state.inventory) row (ordering table) ∧ placed? row = some e := by
  rw [← filterMap_ordering] at least
  obtain ⟨front, back, split, before, behind⟩ := least
  obtain ⟨first, later, whole, rfl, later_split⟩ := List.filterMap_eq_append_iff.1 split
  obtain ⟨idle, row, last, rfl, none, found, rfl⟩ := List.filterMap_eq_cons_iff.1 later_split
  have placed : ∀ row' ∈ first ++ (idle ++ row :: last), ∃ e', placed? row' = some e' := by
    rw [← whole]
    exact fun row' => exists_placed
  refine ⟨row, ⟨first ++ idle, last, by rw [whole, List.append_assoc], ?_, ?_⟩, found⟩
  · intro row' member
    obtain ⟨e', found'⟩ := placed row' (by
      rw [← List.append_assoc]
      exact List.mem_append_left _ member)
    rcases List.mem_append.1 member with early | idle
    · dsimp only
      rw [inventory_of_placed found, inventory_of_placed found']
      exact before e' (List.mem_filterMap.2 ⟨row', early, found'⟩)
    · rw [none row' idle] at found'
      cases found'
  · intro row' member
    obtain ⟨e', found'⟩ := placed row' (by simp [member])
    dsimp only
    rw [inventory_of_placed found, inventory_of_placed found']
    exact behind e' (List.mem_filterMap.2 ⟨row', member, found'⟩)

theorem reads_of_ofTable? {policy : ReorderPolicy} (read : ofTable? table = some policy) :
    Reads table policy := by
  rw [ofTable?_eq] at read
  cases rows : table.filterMap placed? with
  | nil =>
    rw [rows] at read
    cases read
  | cons first rest =>
    rw [rows] at read
    cases read
    obtain ⟨highest, most⟩ := highest_spec first rest
    have least := firstLeast_lowest first rest
    rw [← rows] at highest most least
    obtain ⟨row, least, found⟩ := firstLeast_of_placed least
    obtain ⟨state, action, -⟩ := placed?_eq_some_iff.1 found
    refine ⟨⟨?_, ?_⟩, row, _, least, action, by rw [state], by rw [state]⟩
    · obtain ⟨e, member, same⟩ := highest
      obtain ⟨row, listed, found⟩ := mem_placed_iff.1 member
      exact ⟨row, listed, by rw [inventory_of_placed found, same]⟩
    · rintro x ⟨row, listed, rfl⟩
      obtain ⟨e, found⟩ := exists_placed listed
      rw [inventory_of_placed found]
      exact most e (mem_placed_iff.2 ⟨row, listed, found⟩)

-- With different inventories one row has the least of them, wherever it stands.
theorem ofPlaced?_of_perm {rows rows' : List (Level × Order)} (same : rows'.Perm rows)
    (distinct : (rows.map (·.1.inventory)).Nodup) : ofPlaced? rows' = ofPlaced? rows := by
  cases rows with
  | nil => rw [List.perm_nil.1 same]
  | cons first rest =>
    cases rows' with
    | nil => exact absurd same.symm.eq_nil (List.cons_ne_nil _ _)
    | cons first' rest' =>
      have least := firstLeast_lowest first rest
      have least' := firstLeast_lowest first' rest'
      have low : lowest first' rest' = lowest first rest := by
        refine List.inj_on_of_nodup_map distinct (same.mem_iff.1 least'.mem) least.mem ?_
        exact le_antisymm (least'.le (same.mem_iff.2 least.mem))
          (least.le (same.mem_iff.1 least'.mem))
      obtain ⟨⟨row, member, high⟩, most⟩ := highest_spec first rest
      obtain ⟨⟨row', member', high'⟩, most'⟩ := highest_spec first' rest'
      have high : highest first'.1.inventory rest' = highest first.1.inventory rest :=
        le_antisymm (high'.trans_le (most row' (same.mem_iff.1 member')))
          (high.trans_le (most' row (same.mem_iff.2 member)))
      rw [ofPlaced?, ofPlaced?, low, high]

theorem ofTable?_of_perm (distinct : (table.map (·.state.inventory)).Nodup)
    (same : (ordering table').Perm (ordering table)) : ofTable? table' = ofTable? table := by
  rw [ofTable?_eq, ofTable?_eq, ← filterMap_ordering table']
  rw [← filterMap_ordering table]
  refine ofPlaced?_of_perm (same.filterMap placed?) ?_
  rw [filterMap_ordering, List.Nodup, List.pairwise_map, List.pairwise_filterMap]
  refine (List.pairwise_map.1 distinct).imp fun {row row'} unequal e found e' found' => ?_
  rwa [← inventory_of_placed found, ← inventory_of_placed found']

theorem ofTable?_of_ordering_eq (same : ordering table' = ordering table) :
    ofTable? table' = ofTable? table := by
  rw [ofTable?_eq, ofTable?_eq, ← filterMap_ordering table', same, filterMap_ordering]

/-- The rows order up to `S` at `s` and below it, and nothing above it. -/
def Follows (s S : Int) (table : List (PolicyEntry Level Order ρ)) : Prop :=
  ∀ row ∈ table, row.action =
    some ⟨if row.state.inventory ≤ s then S - row.state.inventory else 0⟩

section Follows

variable {s S : Int} (follows : Follows s S table) (below : s < S)

include follows

theorem Follows.quantity_eq {row : PolicyEntry Level Order ρ} {o : Order} (listed : row ∈ table)
    (action : row.action = some o) :
    o.quantity = if row.state.inventory ≤ s then S - row.state.inventory else 0 := by
  rw [follows row listed] at action
  cases action
  rfl

include below

theorem Follows.mem_ordering_iff {row : PolicyEntry Level Order ρ} :
    row ∈ ordering table ↔ row ∈ table ∧ row.state.inventory ≤ s := by
  rw [mem_ordering]
  refine and_congr_right fun listed => ?_
  constructor
  · rintro ⟨o, action, positive⟩
    rw [follows.quantity_eq listed action] at positive
    split at positive
    · assumption
    · cases positive
  · intro low
    refine ⟨_, follows row listed, ?_⟩
    rw [if_pos low]
    exact Int.sub_pos.2 (low.trans_lt below)

theorem ofTable?_of_follows (reached : ∃ row ∈ table, row.state.inventory ≤ s) :
    ∃ policy, ofTable? table = some policy ∧ policy.orderUpTo = S ∧
      IsGreatest {x | x ≤ s ∧ ∃ row ∈ table, row.state.inventory = x} policy.reorderPoint := by
  obtain ⟨row, listed, low⟩ := reached
  have ordered := (follows.mem_ordering_iff below).2 ⟨listed, low⟩
  cases read : ofTable? table with
  | none => exact absurd (mem_ordering.1 ordered).2 (ofTable?_eq_none_iff.1 read row listed)
  | some policy =>
    obtain ⟨point, row, o, least, action, -, upTo⟩ := reads_of_ofTable? read
    obtain ⟨listed, low⟩ := (follows.mem_ordering_iff below).1 least.mem
    refine ⟨policy, rfl, ?_, ?_⟩
    · rw [upTo, follows.quantity_eq listed action, if_pos low]
      omega
    · have levels : {x | x ≤ s ∧ ∃ row ∈ table, row.state.inventory = x} =
          {x | ∃ row ∈ ordering table, row.state.inventory = x} := by
        ext x
        simp only [Set.mem_ofPred_eq, follows.mem_ordering_iff below]
        constructor
        · rintro ⟨low, row, listed, rfl⟩
          exact ⟨row, ⟨listed, low⟩, rfl⟩
        · rintro ⟨row, ⟨listed, low⟩, rfl⟩
          exact ⟨low, row, listed, rfl⟩
      rw [levels]
      exact point

end Follows

end Horizon.ReorderPolicy
