import Mathlib.Data.Set.Card
import Horizon.Store

/-! What a store answers, however its entries are spread.

The entries of a store have distinct keys and are what its look-ups find, so the look-ups determine
them up to their order (`perm_of_lookup`). A `Record` is the plainest insert-only map, the list of
the values that were made for keys. A store that is asked the same `Request`s gives the same
replies, and has values made at the same requests (`Kept.serve`, `Kept.serveAll`).
-/

set_option autoImplicit false

namespace Horizon

variable {κ ν ω : Type} [DecidableEq κ]

namespace Store

-- Keys of one table are distinct, and keys of two tables are placed in different ones.
theorem distinct_keys (s : Store κ ν) : s.keys.Nodup := by
  rw [keys, toList, List.map_flatMap, List.nodup_flatMap]
  refine ⟨fun t _ => t.distinct, List.pairwise_iff_getElem.2 ?_⟩
  intro i j bound bound' before key member member'
  obtain ⟨entry, held, rfl⟩ := List.mem_map.1 member
  obtain ⟨entry', held', same⟩ := List.mem_map.1 member'
  rw [Array.length_toList] at bound bound'
  have first := s.placed i bound entry (by simpa using held)
  have second := s.placed j bound' entry' (by simpa using held')
  rw [same] at second
  omega

theorem lookup_toList (s : Store κ ν) (key : κ) : s.toList.lookup key = s.get? key := by
  ext value
  rw [← Buckets.mem_iff_lookup s.distinct_keys, mem_toList]

theorem mem_keys (s : Store κ ν) (key : κ) : key ∈ s.keys ↔ s.contains key = true := by
  rw [contains, Option.isSome_iff_exists, keys, List.mem_map]
  constructor
  · rintro ⟨⟨_, value⟩, held, rfl⟩
    exact ⟨value, (s.mem_toList _ value).1 held⟩
  · rintro ⟨value, held⟩
    exact ⟨(key, value), (s.mem_toList key value).2 held, rfl⟩

theorem size_eq_length_keys (s : Store κ ν) : s.size = s.keys.length := by
  rw [keys, List.length_map, size_eq_length_toList]

theorem keys_ofConfig (config : StorageConfig) (hash : κ → UInt64) :
    (ofConfig config hash : Store κ ν).keys = [] := by
  rw [← List.length_eq_zero_iff, ← size_eq_length_keys, size_ofConfig]

theorem encard_keys (s : Store κ ν) : {key | s.contains key = true}.encard = s.size := by
  have same : {key | s.contains key = true} = (s.keys.toFinset : Set κ) := by
    ext key
    simp [mem_keys]
  rw [same, Set.encard_coe_eq_coe_finsetCard, List.toFinset_card_of_nodup s.distinct_keys,
    size_eq_length_keys]

theorem perm_keys_insertNew {s : Store κ ν} {key : κ} (absent : s.contains key = false)
    (value : ν) : (s.insertNew key value).keys.Perm (key :: s.keys) := by
  have new : key ∉ s.keys := by
    rw [mem_keys, absent]
    exact Bool.false_ne_true
  refine (List.perm_ext_iff_of_nodup (distinct_keys _) (List.nodup_cons.2 ⟨new, s.distinct_keys⟩)).2
    fun key' => ?_
  rw [mem_keys, contains_insertNew, List.mem_cons, mem_keys, Bool.or_eq_true, beq_iff_eq,
    eq_comm]

theorem encard_keys_of_kind (s : Store κ ν) (kind : κ → Bool) :
    {key | kind key = true ∧ s.contains key = true}.encard = s.keys.countP kind := by
  have same : {key | kind key = true ∧ s.contains key = true} =
      ((s.keys.filter kind).toFinset : Set κ) := by
    ext key
    simp [mem_keys, and_comm]
  rw [same, Set.encard_coe_eq_coe_finsetCard,
    List.toFinset_card_of_nodup (s.distinct_keys.filter kind), List.countP_eq_length_filter]

theorem perm_of_lookup {s : Store κ ν} {entries : List (κ × ν)}
    (distinct : (entries.map Prod.fst).Nodup)
    (same : ∀ key, s.get? key = entries.lookup key) : s.toList.Perm entries := by
  refine (List.perm_ext_iff_of_nodup s.distinct_keys.of_map distinct.of_map).2 ?_
  rintro ⟨key, value⟩
  rw [mem_toList, same, Buckets.mem_iff_lookup distinct]

/-- Something to ask of a store. A value that is missing is made by an action on a context. -/
inductive Request (κ ν ω : Type) where
  | get (key : κ)
  | getOrInsertWith (key : κ) (make : StateM ω ν)
  | size
  | isEmpty
  | values

inductive Reply (ν : Type) where
  | found (value : Option ν)
  | given (value : ν)
  | size (count : Nat)
  | isEmpty (empty : Bool)
  | values (all : Multiset ν)

def serve (s : Store κ ν) : Request κ ν ω → StateM ω (Reply ν × Store κ ν)
  | .get key => pure (.found (s.get? key), s)
  | .getOrInsertWith key make => do
    let (value, s) ← s.getOrInsertWith key make
    pure (.given value, s)
  | .size => pure (.size s.size, s)
  | .isEmpty => pure (.isEmpty s.isEmpty, s)
  | .values => pure (.values s.values, s)

def serveAll (s : Store κ ν) : List (Request κ ν ω) → StateM ω (List (Reply ν) × Store κ ν)
  | [] => pure ([], s)
  | request :: rest => do
    let (reply, s) ← s.serve request
    let (replies, s) ← s.serveAll rest
    pure (reply :: replies, s)

theorem serveAll_cons (s : Store κ ν) (request : Request κ ν ω) (rest : List (Request κ ν ω))
    (c : ω) :
    s.serveAll (request :: rest) c =
      let first := s.serve request c
      let later := first.1.2.serveAll rest first.2
      ((first.1.1 :: later.1.1, later.1.2), later.2) :=
  rfl

end Store

open Store (Request Reply)

abbrev Record (κ ν : Type) :=
  List (κ × ν)

namespace Record

def keys (r : Record κ ν) : Finset κ :=
  (r.map Prod.fst).toFinset

/-- A key has the first value that was made for it, and one is made only if there is none. -/
def serve (r : Record κ ν) : Request κ ν ω → StateM ω (Reply ν × Record κ ν)
  | .get key => pure (.found (r.lookup key), r)
  | .getOrInsertWith key make =>
    match r.lookup key with
    | some value => pure (.given value, r)
    | none => do
      let value ← make
      pure (.given value, r ++ [(key, value)])
  | .size => pure (.size r.keys.card, r)
  | .isEmpty => pure (.isEmpty (decide (r.keys = ∅)), r)
  | .values => pure (.values (r.map Prod.snd), r)

def serveAll (r : Record κ ν) : List (Request κ ν ω) → StateM ω (List (Reply ν) × Record κ ν)
  | [] => pure ([], r)
  | request :: rest => do
    let (reply, r) ← r.serve request
    let (replies, r) ← r.serveAll rest
    pure (reply :: replies, r)

theorem serveAll_cons (r : Record κ ν) (request : Request κ ν ω) (rest : List (Request κ ν ω))
    (c : ω) :
    r.serveAll (request :: rest) c =
      let first := r.serve request c
      let later := first.1.2.serveAll rest first.2
      ((first.1.1 :: later.1.1, later.1.2), later.2) :=
  rfl

end Record

/-- A store has what is recorded, and no key is recorded twice. -/
structure Kept (r : Record κ ν) (s : Store κ ν) : Prop where
  get?_eq : ∀ key, s.get? key = r.lookup key
  distinct : (r.map Prod.fst).Nodup

namespace Kept

variable {r : Record κ ν} {s : Store κ ν}

theorem of_vacant (vacant : ∀ key, s.get? key = none) : Kept [] s :=
  ⟨vacant, .nil⟩

theorem size_eq (kept : Kept r s) : s.size = r.keys.card := by
  rw [Record.keys, List.toFinset_card_of_nodup kept.distinct, List.length_map,
    s.size_eq_length_toList, (Store.perm_of_lookup kept.distinct kept.get?_eq).length_eq]

theorem isEmpty_eq (kept : Kept r s) : s.isEmpty = decide (r.keys = ∅) := by
  rw [Store.isEmpty, kept.size_eq, Bool.eq_iff_iff, beq_iff_eq, decide_eq_true_iff]
  exact Finset.card_eq_zero

theorem values_eq (kept : Kept r s) : (s.values : Multiset ν) = r.map Prod.snd :=
  Multiset.coe_eq_coe.2 ((Store.perm_of_lookup kept.distinct kept.get?_eq).map Prod.snd)

theorem insertNew (kept : Kept r s) {key : κ} (missing : r.lookup key = none) (value : ν) :
    Kept (r ++ [(key, value)]) (s.insertNew key value) where
  get?_eq key' := by
    rw [s.get?_insertNew, kept.get?_eq, kept.get?_eq, List.lookup_append]
    by_cases same : key = key'
    · subst same
      rw [if_pos rfl, missing, Option.none_or, Option.none_or, Buckets.lookup_entry_cons,
        if_pos rfl]
    · rw [if_neg same, Buckets.lookup_entry_cons, if_neg (Ne.symm same)]
      exact Option.or_none.symm
  distinct := by
    rw [List.map_append, List.nodup_append]
    refine ⟨kept.distinct, List.nodup_singleton _, fun key' member key'' last same => ?_⟩
    obtain ⟨entry, held, rfl⟩ := List.mem_map.1 member
    rw [List.map_singleton, List.mem_singleton] at last
    have unequal := List.lookup_eq_none_iff.1 missing entry held
    simp [same, last] at unequal

-- What one request preserves.
theorem serve (kept : Kept r s) (request : Request κ ν ω) (c : ω) :
    (s.serve request c).1.1 = (r.serve request c).1.1 ∧
      (s.serve request c).2 = (r.serve request c).2 ∧
      Kept (r.serve request c).1.2 (s.serve request c).1.2 := by
  cases request with
  | get key => exact ⟨congrArg Reply.found (kept.get?_eq key), rfl, kept⟩
  | size => exact ⟨congrArg Reply.size kept.size_eq, rfl, kept⟩
  | isEmpty => exact ⟨congrArg Reply.isEmpty kept.isEmpty_eq, rfl, kept⟩
  | values => exact ⟨congrArg Reply.values kept.values_eq, rfl, kept⟩
  | getOrInsertWith key make =>
    have found := kept.get?_eq key
    unfold Store.serve Record.serve Store.getOrInsertWith
    dsimp only
    rw [found]
    cases recorded : r.lookup key with
    | some value => exact ⟨rfl, rfl, kept⟩
    | none => exact ⟨rfl, rfl, kept.insertNew recorded (make c).1⟩

theorem serveAll (kept : Kept r s) (requests : List (Request κ ν ω)) (c : ω) :
    (s.serveAll requests c).1.1 = (r.serveAll requests c).1.1 ∧
      (s.serveAll requests c).2 = (r.serveAll requests c).2 ∧
      Kept (r.serveAll requests c).1.2 (s.serveAll requests c).1.2 := by
  induction requests generalizing r s c with
  | nil => exact ⟨rfl, rfl, kept⟩
  | cons request rest ih =>
    obtain ⟨reply, context, next⟩ := kept.serve request c
    obtain ⟨replies, last, after⟩ := ih next (r.serve request c).2
    simp only [Store.serveAll_cons, Record.serveAll_cons, context]
    exact ⟨congrArg₂ List.cons reply replies, last, after⟩

end Kept

end Horizon
