import Horizon.Store.Table

/-! Insert-only maps.

A store keeps the first value that a key is given. Its entries lie in one table or are spread over
several by a hash of the key; which one it is shows in no answer except the order of the entries.
What an operation does is said by its effect on look-ups (`get?_insertNew`) and on the number of
entries (`size_insertNew`), and `mem_toList` ties the entries to the look-ups.
-/

set_option autoImplicit false

namespace Horizon

inductive StorageKind where
  | hashMap
  | concurrent
  | sharded (shards : Nat)
  deriving Repr, DecidableEq, Inhabited

/-- The kind of a store and how many entries it is expected to hold. Tables grow as they need to,
so the expectation is only recorded. -/
structure StorageConfig where
  kind : StorageKind
  capacityHint : Nat
  deriving Repr, DecidableEq

def StorageConfig.default : StorageConfig :=
  ⟨.concurrent, 1024⟩

def StorageKind.tables : StorageKind → Nat
  | .hashMap => 1
  | .concurrent => 1
  | .sharded shards => max 1 shards

def StorageKind.isValid : StorageKind → Bool
  | .sharded 0 => false
  | _ => true

/-- An insert-only map. A key lies in the table that its number `spread` gives. -/
structure Store (κ ν : Type) [DecidableEq κ] where
  spread : κ → Nat
  tables : Array (Table κ ν spread)
  nonempty : 0 < tables.size
  placed : ∀ i, ∀ bound : i < tables.size, ∀ entry ∈ tables[i].entries,
    spread entry.1 % tables.size = i

namespace Store

variable {κ ν : Type} [DecidableEq κ]

def empty (count : Nat) (spread : κ → Nat) : Store κ ν where
  spread := spread
  tables := Array.replicate (max 1 count) .empty
  nonempty := by
    rw [Array.size_replicate]
    omega
  placed := by
    intro i bound entry member
    rw [Array.getElem_replicate] at member
    exact absurd member List.not_mem_nil

/-- A store without entries that spreads its keys by the low half of a hash. -/
@[inline] def ofConfig (config : StorageConfig) (hash : κ → UInt64) : Store κ ν :=
  empty config.kind.tables fun key => (hash key).toUInt32.toNat

def tableCount (s : Store κ ν) : Nat :=
  s.tables.size

@[inline] def index (s : Store κ ν) (key : κ) : Nat :=
  s.spread key % s.tables.size

theorem index_lt (s : Store κ ν) (key : κ) : s.index key < s.tables.size :=
  Nat.mod_lt _ s.nonempty

@[inline] def table (s : Store κ ν) (key : κ) : Table κ ν s.spread :=
  have := s.index_lt key
  s.tables[s.index key]

@[inline] def get? (s : Store κ ν) (key : κ) : Option ν :=
  (s.table key).get? key

@[inline] def contains (s : Store κ ν) (key : κ) : Bool :=
  (s.get? key).isSome

theorem placed_modify {spread : κ → Nat} {tables : Array (Table κ ν spread)}
    (placed : ∀ i, ∀ bound : i < tables.size, ∀ entry ∈ tables[i].entries,
      spread entry.1 % tables.size = i) (key : κ) (value : ν) :
    let changed := tables.modify (spread key % tables.size) (·.insertNew key value)
    ∀ i, ∀ bound : i < changed.size, ∀ entry ∈ changed[i].entries,
      spread entry.1 % changed.size = i := by
  intro changed i bound entry member
  have size : changed.size = tables.size := Array.size_modify
  rw [size] at bound ⊢
  rw [Array.getElem_modify] at member
  split at member
  · next same =>
    rw [Table.entries_insertNew] at member
    split at member
    · exact placed i bound entry member
    · rcases List.mem_cons.1 member with rfl | member
      · exact same
      · exact placed i bound entry member
  · exact placed i bound entry member

@[inline] def insertNew (s : Store κ ν) (key : κ) (value : ν) : Store κ ν :=
  match s with
  | ⟨spread, tables, nonempty, placed⟩ =>
    { spread := spread
      tables := tables.modify (spread key % tables.size) (·.insertNew key value)
      nonempty := by
        rw [Array.size_modify]
        exact nonempty
      placed := placed_modify placed key value }

def getOrInsertWith {m : Type → Type} [Monad m] (s : Store κ ν) (key : κ) (make : m ν) :
    m (ν × Store κ ν) :=
  match s.get? key with
  | some value => pure (value, s)
  | none => do
    let value ← make
    pure (value, s.insertNew key value)

def totalSize {spread : κ → Nat} : List (Table κ ν spread) → Nat
  | [] => 0
  | t :: rest => t.size + totalSize rest

def size (s : Store κ ν) : Nat :=
  totalSize s.tables.toList

def isEmpty (s : Store κ ν) : Bool :=
  s.size == 0

def toList (s : Store κ ν) : List (κ × ν) :=
  s.tables.toList.flatMap Table.entries

def keys (s : Store κ ν) : List κ :=
  s.toList.map Prod.fst

def values (s : Store κ ν) : List ν :=
  s.toList.map Prod.snd

theorem table_empty (count : Nat) (spread : κ → Nat) (key : κ) :
    (empty count spread : Store κ ν).table key = .empty := by
  simp only [table, empty, Array.getElem_replicate]

@[simp] theorem get?_empty (count : Nat) (spread : κ → Nat) (key : κ) :
    (empty count spread : Store κ ν).get? key = none := by
  rw [get?, table_empty, Table.get?_eq_lookup]
  rfl

@[simp] theorem get?_ofConfig (config : StorageConfig) (hash : κ → UInt64) (key : κ) :
    (ofConfig config hash : Store κ ν).get? key = none :=
  get?_empty _ _ key

@[simp] theorem size_empty (count : Nat) (spread : κ → Nat) :
    (empty count spread : Store κ ν).size = 0 := by
  have none : ∀ n, totalSize (List.replicate n (.empty : Table κ ν spread)) = 0 := by
    intro n
    induction n with
    | zero => rfl
    | succ n ih => simpa [List.replicate_succ, totalSize, Table.empty] using ih
  rw [size, empty, Array.toList_replicate, none]

@[simp] theorem size_ofConfig (config : StorageConfig) (hash : κ → UInt64) :
    (ofConfig config hash : Store κ ν).size = 0 :=
  size_empty _ _

theorem size_eq_length_toList (s : Store κ ν) : s.size = s.toList.length := by
  rw [size, toList]
  induction s.tables.toList with
  | nil => rfl
  | cons t rest ih => rw [totalSize, ih, t.size_eq, List.flatMap_cons, List.length_append]

theorem entries_table_insertNew (s : Store κ ν) (key key' : κ) (value : ν) :
    ((s.insertNew key value).table key').entries =
      if s.index key = s.index key' then ((s.table key').insertNew key value).entries
      else (s.table key').entries := by
  simp only [table, index, insertNew, Array.size_modify, Array.getElem_modify]
  split <;> simp [*]

theorem get?_insertNew (s : Store κ ν) (key key' : κ) (value : ν) :
    (s.insertNew key value).get? key' =
      if key = key' then (s.get? key).or (some value) else s.get? key' := by
  rw [get?, Table.get?_eq_lookup, entries_table_insertNew, Table.entries_insertNew]
  by_cases same : key = key'
  · subst same
    rw [if_pos rfl, if_pos rfl, Table.contains, get?, Table.get?_eq_lookup]
    cases held : (s.table key).entries.lookup key with
    | none => simp [Buckets.lookup_entry_cons]
    | some value => simpa using held
  · rw [if_neg same, get?, Table.get?_eq_lookup]
    split
    · split
      · rfl
      · rw [Buckets.lookup_entry_cons]
        exact if_neg (Ne.symm same)
    · rfl

theorem contains_insertNew (s : Store κ ν) (key key' : κ) (value : ν) :
    (s.insertNew key value).contains key' = (key == key' || s.contains key') := by
  simp only [contains, get?_insertNew]
  by_cases same : key = key' <;> simp [same]

theorem mem_toList (s : Store κ ν) (key : κ) (value : ν) :
    (key, value) ∈ s.toList ↔ s.get? key = some value := by
  rw [get?, ← Table.mem_entries, toList, List.mem_flatMap]
  constructor
  · rintro ⟨t, held, member⟩
    obtain ⟨i, bound, rfl⟩ := Array.mem_iff_getElem.1 (Array.mem_toList_iff.1 held)
    have here : s.index key = i := s.placed i bound (key, value) member
    subst here
    exact member
  · intro member
    exact ⟨s.table key, Array.mem_toList_iff.2 (Array.getElem_mem _), member⟩

theorem totalSize_append {spread : κ → Nat} (front back : List (Table κ ν spread)) :
    totalSize (front ++ back) = totalSize front + totalSize back := by
  induction front with
  | nil => exact (Nat.zero_add _).symm
  | cons t rest ih => rw [List.cons_append, totalSize, totalSize, ih, Nat.add_assoc]

theorem totalSize_modify {spread : κ → Nat} (tables : Array (Table κ ν spread)) (i : Nat)
    (bound : i < tables.size) (change : Table κ ν spread → Table κ ν spread) :
    totalSize (tables.modify i change).toList + tables[i].size =
      totalSize tables.toList + (change tables[i]).size := by
  have inside : i < tables.toList.length := by simpa using bound
  have before : tables.toList =
      tables.toList.take i ++ tables[i] :: tables.toList.drop (i + 1) := by
    conv => lhs; rw [← List.take_append_drop i tables.toList]
    rw [List.drop_eq_getElem_cons inside]
    rfl
  have after : (tables.modify i change).toList =
      tables.toList.take i ++ change tables[i] :: tables.toList.drop (i + 1) := by
    rw [Array.toList_modify]
    exact List.modify_eq_take_cons_drop inside
  rw [after]
  conv => rhs; rw [before]
  simp only [totalSize_append, totalSize]
  omega

theorem size_insertNew (s : Store κ ν) (key : κ) (value : ν) :
    (s.insertNew key value).size = if s.contains key then s.size else s.size + 1 := by
  have changed := totalSize_modify s.tables (s.index key) (s.index_lt key) (·.insertNew key value)
  have grown := Table.size_insertNew (s.table key) key value
  change (s.insertNew key value).size + (s.table key).size =
    s.size + ((s.table key).insertNew key value).size at changed
  rw [show s.contains key = (s.table key).contains key from rfl]
  split at grown
  · next held =>
    rw [if_pos held]
    omega
  · next missing =>
    rw [if_neg missing]
    omega

end Store

end Horizon
