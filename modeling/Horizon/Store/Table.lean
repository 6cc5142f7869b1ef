/-! Association lists with an index.

The entries of a table are a list, the latest first, in which no key occurs twice. The same entries
lie in buckets, by a number that `spread` gives their keys, so that a key is sought in its bucket
only. `get?_eq_lookup` says that this finds what the list holds, for every `spread`; it is part of
the type, and so are the size and the distinctness of the keys. All of it evaluates by definition.
-/

set_option autoImplicit false

namespace Horizon

variable {κ ν : Type}

namespace Buckets

@[inline] def position (spread : κ → Nat) (count : Nat) (key : κ) : Nat :=
  spread key % count

@[inline] def bucket (spread : κ → Nat) (buckets : Array (List (κ × ν))) (key : κ) :
    List (κ × ν) :=
  buckets.getD (position spread buckets.size key) []

@[inline] def file (spread : κ → Nat) (buckets : Array (List (κ × ν))) (entry : κ × ν) :
    Array (List (κ × ν)) :=
  buckets.modify (position spread buckets.size entry.1) (entry :: ·)

def distribute (spread : κ → Nat) (count : Nat) (entries : List (κ × ν)) :
    Array (List (κ × ν)) :=
  entries.foldr (fun entry buckets => file spread buckets entry) (Array.replicate count [])

/-- The buckets of some entries and one more: a longer array when there are as many as buckets. -/
@[inline] def refile (spread : κ → Nat) (buckets : Array (List (κ × ν))) (size : Nat)
    (entries : List (κ × ν)) (entry : κ × ν) : Array (List (κ × ν)) :=
  if size < buckets.size then file spread buckets entry
  else distribute spread (2 * buckets.size + 1) (entry :: entries)

theorem size_file (spread : κ → Nat) (buckets : Array (List (κ × ν))) (entry : κ × ν) :
    (file spread buckets entry).size = buckets.size :=
  Array.size_modify

theorem size_distribute (spread : κ → Nat) (count : Nat) (entries : List (κ × ν)) :
    (distribute spread count entries).size = count := by
  induction entries with
  | nil => exact Array.size_replicate
  | cons entry rest ih => exact (size_file _ _ _).trans ih

theorem size_refile (spread : κ → Nat) (buckets : Array (List (κ × ν))) (size : Nat)
    (entries : List (κ × ν)) (entry : κ × ν) :
    buckets.size ≤ (refile spread buckets size entries entry).size := by
  rw [refile]
  split
  · exact Nat.le_of_eq (size_file spread buckets entry).symm
  · rw [size_distribute]
    omega

theorem bucket_file (spread : κ → Nat) (buckets : Array (List (κ × ν)))
    (nonempty : 0 < buckets.size) (entry : κ × ν) (key : κ) :
    bucket spread (file spread buckets entry) key =
      if position spread buckets.size entry.1 = position spread buckets.size key then
        entry :: bucket spread buckets key
      else bucket spread buckets key := by
  have bound : position spread buckets.size key < buckets.size := Nat.mod_lt _ nonempty
  simp only [bucket, size_file, Array.getD_eq_getD_getElem?]
  simp only [file, Array.getElem?_modify, bound, Array.getElem?_eq_getElem]
  split <;> rfl

variable [DecidableEq κ]

theorem lookup_entry_cons (entry : κ × ν) (rest : List (κ × ν)) (key : κ) :
    (entry :: rest).lookup key = if key = entry.1 then some entry.2 else rest.lookup key := by
  obtain ⟨entryKey, value⟩ := entry
  by_cases same : key = entryKey
  · simp [same]
  · have other : (key == entryKey) = false := by simpa using same
    simp [List.lookup_cons, other, same]

theorem mem_iff_lookup {entries : List (κ × ν)} (distinct : (entries.map Prod.fst).Nodup)
    (key : κ) (value : ν) : (key, value) ∈ entries ↔ entries.lookup key = some value := by
  induction entries with
  | nil => simp
  | cons entry rest ih =>
    rw [List.map_cons, List.nodup_cons] at distinct
    rw [lookup_entry_cons, List.mem_cons, ih distinct.2]
    by_cases same : key = entry.1
    · have hidden : rest.lookup key ≠ some value := fun held =>
        distinct.1 (same ▸ List.mem_map_of_mem ((ih distinct.2).2 held))
      obtain ⟨entryKey, held⟩ := entry
      simp_all [eq_comm]
    · have other : (key, value) ≠ entry := fun equal => same (congrArg Prod.fst equal)
      simp [same, other]

theorem lookup_file (spread : κ → Nat) (buckets : Array (List (κ × ν)))
    (nonempty : 0 < buckets.size) (entry : κ × ν) (key : κ) :
    (bucket spread (file spread buckets entry) key).lookup key =
      if key = entry.1 then some entry.2 else (bucket spread buckets key).lookup key := by
  rw [bucket_file spread buckets nonempty]
  by_cases same : key = entry.1
  · rw [same, if_pos rfl, if_pos rfl, lookup_entry_cons, if_pos rfl]
  · rw [if_neg same]
    split
    · rw [lookup_entry_cons, if_neg same]
    · rfl

theorem lookup_distribute (spread : κ → Nat) (count : Nat) (positive : 0 < count)
    (entries : List (κ × ν)) (key : κ) :
    (bucket spread (distribute spread count entries) key).lookup key = entries.lookup key := by
  induction entries with
  | nil =>
    have bound : position spread count key < count := Nat.mod_lt _ positive
    simp [bucket, distribute, Array.getD_eq_getD_getElem?, bound]
  | cons entry rest ih =>
    have nonempty : 0 < (distribute spread count rest).size := by
      rw [size_distribute]
      exact positive
    rw [lookup_entry_cons, ← ih]
    exact lookup_file spread _ nonempty entry key

theorem lookup_refile (spread : κ → Nat) (buckets : Array (List (κ × ν)))
    (nonempty : 0 < buckets.size) (size : Nat) (entries : List (κ × ν)) (entry : κ × ν)
    (found : ∀ key, (bucket spread buckets key).lookup key = entries.lookup key) (key : κ) :
    (bucket spread (refile spread buckets size entries entry) key).lookup key =
      (entry :: entries).lookup key := by
  rw [refile]
  split
  · rw [lookup_file spread buckets nonempty, found, lookup_entry_cons]
  · exact lookup_distribute spread _ (by omega) _ key

end Buckets

open Buckets

/-- An association list with distinct keys, and buckets in which its keys are sought. -/
structure Table (κ ν : Type) [DecidableEq κ] (spread : κ → Nat) where
  entries : List (κ × ν)
  size : Nat
  buckets : Array (List (κ × ν))
  size_eq : size = entries.length
  distinct : (entries.map Prod.fst).Nodup
  nonempty : 0 < buckets.size
  found : ∀ key, (bucket spread buckets key).lookup key = entries.lookup key

namespace Table

variable [DecidableEq κ] {spread : κ → Nat}

def empty : Table κ ν spread where
  entries := []
  size := 0
  buckets := distribute spread 7 []
  size_eq := rfl
  distinct := .nil
  nonempty := Nat.lt_of_lt_of_eq (by decide) (size_distribute spread 7 []).symm
  found := lookup_distribute spread 7 (by decide) []

@[inline] def get? (t : Table κ ν spread) (key : κ) : Option ν :=
  (bucket spread t.buckets key).lookup key

@[inline] def contains (t : Table κ ν spread) (key : κ) : Bool :=
  (t.get? key).isSome

theorem get?_eq_lookup (t : Table κ ν spread) (key : κ) : t.get? key = t.entries.lookup key :=
  t.found key

theorem mem_entries (t : Table κ ν spread) (key : κ) (value : ν) :
    (key, value) ∈ t.entries ↔ t.get? key = some value := by
  rw [get?_eq_lookup]
  exact mem_iff_lookup t.distinct key value

@[inline] def insertNew (t : Table κ ν spread) (key : κ) (value : ν) : Table κ ν spread :=
  match h : t.get? key with
  | some _ => t
  | none =>
    match t with
    | ⟨entries, size, buckets, size_eq, distinct, nonempty, found⟩ =>
      { entries := (key, value) :: entries
        size := size + 1
        buckets := refile spread buckets size entries (key, value)
        size_eq := congrArg (· + 1) size_eq
        distinct := by
          have missing : entries.lookup key = none := (found key).symm.trans h
          refine List.nodup_cons.2 ⟨fun member => ?_, distinct⟩
          obtain ⟨entry, held, same⟩ := List.mem_map.1 member
          simpa [same] using List.lookup_eq_none_iff.1 missing entry held
        nonempty := Nat.lt_of_lt_of_le nonempty (size_refile spread buckets size entries _)
        found := lookup_refile spread buckets nonempty size entries (key, value) found }

theorem entries_insertNew (t : Table κ ν spread) (key : κ) (value : ν) :
    (t.insertNew key value).entries =
      if t.contains key then t.entries else (key, value) :: t.entries := by
  rw [insertNew, contains]
  split <;> simp [*]

theorem size_insertNew (t : Table κ ν spread) (key : κ) (value : ν) :
    (t.insertNew key value).size = if t.contains key then t.size else t.size + 1 := by
  rw [size_eq, entries_insertNew, t.size_eq]
  split <;> rfl

end Table

end Horizon
