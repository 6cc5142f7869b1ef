import Mathlib.Data.List.Nodup
import Mathlib.Data.List.Perm.Basic
import Horizon.Config.Json
import Horizon.Proofs.Bellman
import Horizon.Proofs.Lawful
import Horizon.Proofs.Numerals

/-! Configurations are read as they were written.

A record is looked up by the names of its fields. Where no two known fields have one name, neither
the order of the members nor what stands between them under other names makes a difference
(`exists_fields_of_perm`). So each part of a configuration is read as itself, and a configuration
whose document lacks some fields as the one that has defaults there (`ofJson?_of_perm`). The
defaults pass the checks of their fields, so such a configuration is as valid as the whole one was.
-/

set_option autoImplicit false

namespace Horizon

open Json (Octets Value decodeText? decodeKeys IsString Fields)

section Records

structure IsPlain (name : String) : Prop where
  text : decodeText? name.toList = some name
  isString : IsString name.toList

def membersOf (fields : List (String × Value)) : List (Octets × Value) :=
  fields.map fun f => Json.member f.1 f.2

/-- Members whose keys are texts, and none of some names. -/
def Unknown (names : List String) (members : List (Octets × Value)) : Prop :=
  ∀ m ∈ members, ∃ name, decodeText? m.1 = some name ∧ name ∉ names

def named (m : Octets × Value) : String × Value :=
  ((decodeText? m.1).getD "", m.2)

theorem decodeKeys_eq {members : List (Octets × Value)}
    (texts : ∀ m ∈ members, ∃ name, decodeText? m.1 = some name) :
    decodeKeys members = some (members.map named) := by
  induction members with
  | nil => rfl
  | cons m rest ih =>
    obtain ⟨⟨name, text⟩, later⟩ := List.forall_mem_cons.1 texts
    rw [decodeKeys, List.mapM_cons, ← decodeKeys, ih later]
    simp [named, text]

theorem eraseDups_of_nodup {names : List String} (distinct : names.Nodup) :
    names.eraseDups = names := by
  induction names with
  | nil => rfl
  | cons name rest ih =>
    obtain ⟨absent, later⟩ := List.nodup_cons.1 distinct
    have others : rest.filter (fun other => !other == name) = rest := by
      apply List.filter_eq_self.2
      intro other member
      rw [Bool.not_eq_true', beq_eq_false_iff_ne]
      rintro rfl
      exact absent member
    rw [List.eraseDups_cons, others, ih later]

theorem lookup_of_perm {fields others : List (String × Value)} (perm : fields.Perm others)
    (distinct : (others.map Prod.fst).Nodup) (name : String) :
    fields.lookup name = others.lookup name := by
  have same : (fields.map Prod.fst).Nodup := (perm.map Prod.fst).nodup_iff.2 distinct
  ext v
  rw [← Buckets.mem_iff_lookup same, ← Buckets.mem_iff_lookup distinct, perm.mem_iff]

theorem lookup_filter (p : String → Bool) (fields : List (String × Value)) (name : String) :
    (fields.filter fun f => p f.1).lookup name = if p name then fields.lookup name else none := by
  induction fields with
  | nil => simp
  | cons f rest ih =>
    obtain ⟨other, v⟩ := f
    by_cases same : name = other
    · subst same
      cases kept : p name with
      | true => simp [kept]
      | false => simpa [List.filter_cons, kept] using ih
    · have different : (name == other) = false := beq_eq_false_iff_ne.2 same
      cases kept : p other with
      | true => simp [kept, List.lookup_cons, different, ih]
      | false => simp [kept, List.lookup_cons, different, ih]

variable {names : List String} {fields : List (String × Value)}
  {extras members : List (Octets × Value)}

structure IsRecord (names : List String) : Prop where
  plain : ∀ name ∈ names, IsPlain name
  distinct : names.Nodup

theorem map_named_membersOf (plain : ∀ f ∈ fields, IsPlain f.1) :
    (membersOf fields).map named = fields := by
  have same : ∀ f ∈ fields, named (Json.member f.1 f.2) = id f := by
    intro f member
    simp [named, Json.member, (plain f member).text]
  rw [membersOf, List.map_map]
  exact (List.map_congr_left same).trans (List.map_id fields)

theorem exists_fields_of_perm (record : IsRecord names)
    (part : (fields.map Prod.fst).Sublist names) (unknown : Unknown names extras)
    (perm : members.Perm (membersOf fields ++ extras)) :
    ∃ all, Value.fields? names (.object members) = some (.named all) ∧
      ∀ name ∈ names, all.lookup name = fields.lookup name := by
  have known : ∀ f ∈ fields, f.1 ∈ names := fun f member => part.subset (List.mem_map_of_mem member)
  have plain : ∀ f ∈ fields, IsPlain f.1 := fun f member => record.plain f.1 (known f member)
  have distinct : (fields.map Prod.fst).Nodup := record.distinct.sublist part
  have texts : ∀ m ∈ members, ∃ name, decodeText? m.1 = some name := by
    intro m member
    rcases List.mem_append.1 (perm.subset member) with field | extra
    · obtain ⟨f, listed, rfl⟩ := List.mem_map.1 field
      exact ⟨f.1, (plain f listed).text⟩
    · obtain ⟨name, text, -⟩ := unknown m extra
      exact ⟨name, text⟩
  have kept : ((members.map named).filter fun f => names.contains f.1).Perm fields := by
    have others : (extras.map named).filter (fun f => names.contains f.1) = [] := by
      simp only [List.filter_eq_nil_iff, List.forall_mem_map, List.contains_iff_mem]
      intro m extra
      obtain ⟨name, text, absent⟩ := unknown m extra
      simpa [named, text] using absent
    have all : fields.filter (fun f => names.contains f.1) = fields := by
      simpa using known
    have sorted := (perm.map named).filter fun f => names.contains f.1
    rwa [List.map_append, map_named_membersOf plain, List.filter_append, others, all,
      List.append_nil] at sorted
  refine ⟨members.map named, ?_, fun name listed => ?_⟩
  · have once : (((members.map named).map Prod.fst).filter names.contains).Nodup := by
      rw [List.filter_map]
      exact (kept.map Prod.fst).nodup_iff.2 distinct
    rw [Value.fields?, decodeKeys_eq texts]
    exact if_pos (congrArg List.length (eraseDups_of_nodup once))
  · have found := lookup_of_perm kept distinct name
    rwa [lookup_filter, if_pos (List.contains_iff_mem.2 listed)] at found

theorem exists_fields (record : IsRecord names) (complete : fields.map Prod.fst = names) :
    ∃ all, Value.fields? names (.object (membersOf fields)) = some (.named all) ∧
      ∀ name ∈ names, all.lookup name = fields.lookup name := by
  have none : Unknown names [] := fun m member => absurd member List.not_mem_nil
  apply exists_fields_of_perm record (complete ▸ List.Sublist.refl _) none
  rw [List.append_nil]

theorem required_of_lookup {β : Type} {all : List (String × Value)} {name : String} {v : Value}
    {x : β} {decode : Value → Option β} (found : all.lookup name = some v)
    (decoded : decode v = some x) (position : Nat) :
    (Fields.named all).required position name decode = some x := by
  simp [Fields.required, Fields.get?, found, decoded]

theorem optional_of_lookup {β : Type} {all : List (String × Value)} {removed : List String}
    {name : String} {v : Value} {x : β} {decode : Value → Option β}
    (found : all.lookup name = if name ∉ removed then some v else none)
    (decoded : decode v = some x) (position : Nat) (missing : β) :
    (Fields.named all).optional position name missing decode =
      some (if name ∈ removed then missing else x) := by
  by_cases gone : name ∈ removed
  · simp [Fields.optional, Fields.get?, found, gone]
  · simp [Fields.optional, Fields.get?, found, gone, decoded]

theorem wellFormed_of_perm (record : IsRecord names) (part : (fields.map Prod.fst).Sublist names)
    (each : ∀ f ∈ fields, f.2.WellFormed) (others : ∀ m ∈ extras, IsString m.1 ∧ m.2.WellFormed)
    (perm : members.Perm (membersOf fields ++ extras)) : (Value.object members).WellFormed := by
  have both : ∀ m ∈ members, IsString m.1 ∧ m.2.WellFormed := by
    intro m member
    rcases List.mem_append.1 (perm.subset member) with field | extra
    · obtain ⟨f, listed, rfl⟩ := List.mem_map.1 field
      have known : f.1 ∈ names := part.subset (List.mem_map_of_mem listed)
      exact ⟨(record.plain f.1 known).isString, each f listed⟩
    · exact others m extra
  exact .object (fun m member => (both m member).1) fun m member => (both m member).2

theorem wellFormed_object (record : IsRecord names) (complete : fields.map Prod.fst = names)
    (each : ∀ f ∈ fields, f.2.WellFormed) : (Value.object (membersOf fields)).WellFormed := by
  apply wellFormed_of_perm record (complete ▸ List.Sublist.refl _) each (List.forall_mem_nil _)
  rw [List.append_nil]

end Records

section Parts

def codecNames : List String :=
  Config.fieldNames ++ Sampling.fieldNames ++ StorageConfig.fieldNames ++
    ["Minimize", "Maximize", "None", "SimpleRandom", "Jensen", "HashMap", "Concurrent", "Sharded",
      "shards"]

def isVisible (c : Char) : Bool :=
  ¬c < ' ' ∧ c ≠ '"' ∧ c ≠ '\\'

theorem isString_of_visible {raw : Octets} (visible : raw.all isVisible = true) :
    IsString raw := by
  induction raw with
  | nil => exact .empty
  | cons c raw ih =>
    simp only [List.all_cons, isVisible, Bool.and_eq_true, decide_eq_true_eq] at visible
    obtain ⟨⟨printable, quote, slash⟩, later⟩ := visible
    exact .plain printable quote slash (ih later)

theorem isPlain_of_mem {name : String} (member : name ∈ codecNames) : IsPlain name := by
  have text : ∀ name ∈ codecNames, decodeText? name.toList = some name := by decide +kernel
  have visible : ∀ name ∈ codecNames, name.toList.all isVisible = true := by decide +kernel
  exact ⟨text name member, isString_of_visible (visible name member)⟩

theorem wellFormed_text {name : String} (member : name ∈ codecNames) :
    (Value.text name).WellFormed :=
  .string (isPlain_of_mem member).isString

theorem isRecord_of_subset {names : List String} (known : names ⊆ codecNames)
    (distinct : names.Nodup) : IsRecord names :=
  ⟨fun _ member => isPlain_of_mem (known member), distinct⟩

theorem Direction.ofJson?_toJson (d : Direction) : Direction.ofJson? d.toJson = some d := by
  cases d <;> decide +kernel

theorem Direction.wellFormed_toJson (d : Direction) : d.toJson.WellFormed := by
  cases d <;> exact wellFormed_text (by decide)

theorem Scheme.ofJson?_toJson (s : Scheme) : Scheme.ofJson? s.toJson = some s := by
  cases s <;> decide +kernel

theorem Scheme.wellFormed_toJson (s : Scheme) : s.toJson.WellFormed := by
  cases s <;> exact wellFormed_text (by decide)

namespace Sampling

variable {s : Sampling}

def fields (s : Sampling) : List (String × Value) :=
  [("scheme", s.scheme.toJson), ("sample_size", .natural s.size),
    ("reduction_factor", .ofFloat s.reduction)]

theorem isRecord_fieldNames : IsRecord fieldNames :=
  isRecord_of_subset (by decide) (by decide)

theorem ofJson?_toJson (size : s.size < UInt64.size)
    (reduction : (Value.ofFloat s.reduction).float? = some s.reduction) :
    ofJson? s.toJson = some s := by
  obtain ⟨all, taken, found⟩ := exists_fields isRecord_fieldNames (rfl : s.fields.map _ = _)
  have object : s.toJson = .object (membersOf s.fields) := rfl
  have scheme := required_of_lookup (found "scheme" (by decide)) (Scheme.ofJson?_toJson _)
  have size := required_of_lookup (found "sample_size" (by decide)) (unsigned?_natural size)
  have reduction := required_of_lookup (found "reduction_factor" (by decide)) reduction
  simp [ofJson?, object, taken, scheme, size, reduction]

theorem wellFormed_toJson (s : Sampling) : s.toJson.WellFormed := by
  have complete : s.fields.map Prod.fst = fieldNames := rfl
  apply wellFormed_object isRecord_fieldNames complete
  simp [fields, Scheme.wellFormed_toJson, wellFormed_natural, wellFormed_ofFloat]

end Sampling

namespace StorageKind

def shards? : StorageKind → Option Nat
  | .sharded shards => some shards
  | _ => none

theorem isRecord_shards : IsRecord ["shards"] :=
  isRecord_of_subset (by decide) (by decide)

theorem ofJson?_toJson {kind : StorageKind} (inside : ∀ n ∈ kind.shards?, n < UInt64.size) :
    ofJson? kind.toJson = some kind := by
  cases kind with
  | hashMap => decide +kernel
  | concurrent => decide +kernel
  | sharded n =>
    have complete : [("shards", Value.natural n)].map Prod.fst = ["shards"] := rfl
    obtain ⟨all, taken, found⟩ := exists_fields isRecord_shards complete
    have content :=
      required_of_lookup (found "shards" (by decide)) (unsigned?_natural (inside n rfl))
    have name : decodeText? "Sharded".toList = some "Sharded" :=
      (isPlain_of_mem (by decide)).text
    have variant : (StorageKind.sharded n).toJson.variant? =
        some ("Sharded", some (.object (membersOf [("shards", .natural n)]))) := by
      rw [toJson, Json.member, Value.variant?, name]
      rfl
    simp [ofJson?, variant, taken, content]

theorem wellFormed_toJson (kind : StorageKind) : kind.toJson.WellFormed := by
  cases kind with
  | hashMap => exact wellFormed_text (by decide)
  | concurrent => exact wellFormed_text (by decide)
  | sharded n =>
    have complete : [("shards", Value.natural n)].map Prod.fst = ["shards"] := rfl
    have content := wellFormed_object isRecord_shards complete (by simp [wellFormed_natural])
    have isString : IsString "Sharded".toList := (isPlain_of_mem (by decide)).isString
    refine .object (fun m member => ?_) fun m member => ?_
    · cases List.mem_singleton.1 member
      exact isString
    · cases List.mem_singleton.1 member
      exact content

end StorageKind

namespace StorageConfig

variable {storage : StorageConfig}

def fields (storage : StorageConfig) : List (String × Value) :=
  [("kind", storage.kind.toJson), ("capacity_hint", .natural storage.capacityHint)]

theorem isRecord_fieldNames : IsRecord fieldNames :=
  isRecord_of_subset (by decide) (by decide)

theorem ofJson?_toJson (shards : ∀ n ∈ storage.kind.shards?, n < UInt64.size)
    (hint : storage.capacityHint < UInt64.size) : ofJson? storage.toJson = some storage := by
  obtain ⟨all, taken, found⟩ := exists_fields isRecord_fieldNames (rfl : storage.fields.map _ = _)
  have object : storage.toJson = .object (membersOf storage.fields) := rfl
  have kind := required_of_lookup (found "kind" (by decide)) (StorageKind.ofJson?_toJson shards)
  have hint := required_of_lookup (found "capacity_hint" (by decide)) (unsigned?_natural hint)
  simp [ofJson?, object, taken, kind, hint]

theorem wellFormed_toJson (storage : StorageConfig) : storage.toJson.WellFormed := by
  have complete : storage.fields.map Prod.fst = fieldNames := rfl
  apply wellFormed_object isRecord_fieldNames complete
  simp [fields, StorageKind.wellFormed_toJson, wellFormed_natural]

end StorageConfig

end Parts

def Json.Value.members : Value → List (Octets × Value)
  | .object members => members
  | _ => []

namespace Config

variable {config : Config Float} {removed : List String} {extras members : List (Octets × Value)}

def fields (config : Config Float) : List (String × Value) :=
  [("direction", config.direction.toJson), ("horizon_length", .natural config.horizon),
    ("discount_factor", .ofFloat config.discount),
    ("state_sampling", config.stateSampling.toJson),
    ("outcome_sampling", config.outcomeSampling.toJson), ("storage", config.storage.toJson),
    ("seed", .natural config.seed.toNat),
    ("monitor_interval_ms", config.monitorInterval.elim .null .natural)]

theorem toJson_eq (config : Config Float) : config.toJson = .object (membersOf config.fields) := by
  obtain ⟨_, _, _, _, _, _, _, interval⟩ := config
  cases interval <;> rfl

theorem isRecord_fieldNames : IsRecord fieldNames :=
  isRecord_of_subset (by decide) (by decide)

def kept (config : Config Float) (removed : List String) : List (Octets × Value) :=
  config.toJson.members.filter fun m => decide (m.1 ∉ removed.map String.toList)

theorem kept_eq (config : Config Float) (removed : List String) :
    config.kept removed = membersOf (config.fields.filter fun f => decide (f.1 ∉ removed)) := by
  have same : ∀ f : String × Value,
      f.1.toList ∈ removed.map String.toList ↔ f.1 ∈ removed := by
    simp [String.toList_inj]
  simp only [kept, toJson_eq, Value.members, membersOf, List.filter_map, Function.comp_def,
    Json.member, same]

theorem toJson_eq_kept (config : Config Float) : config.toJson = .object (config.kept []) := by
  simp [kept_eq, toJson_eq]

theorem sublist_kept (config : Config Float) (removed : List String) :
    ((config.fields.filter fun f => decide (f.1 ∉ removed)).map Prod.fst).Sublist fieldNames :=
  List.Sublist.map Prod.fst List.filter_sublist

def withDefaults (config : Config Float) (names : List String) : Config Float :=
  let base : Config Float := default
  { direction := if "direction" ∈ names then base.direction else config.direction
    horizon := if "horizon_length" ∈ names then base.horizon else config.horizon
    discount := if "discount_factor" ∈ names then base.discount else config.discount
    stateSampling := if "state_sampling" ∈ names then base.stateSampling else config.stateSampling
    outcomeSampling :=
      if "outcome_sampling" ∈ names then base.outcomeSampling else config.outcomeSampling
    storage := if "storage" ∈ names then base.storage else config.storage
    seed := if "seed" ∈ names then base.seed else config.seed
    monitorInterval :=
      if "monitor_interval_ms" ∈ names then base.monitorInterval else config.monitorInterval }

@[simp]
theorem withDefaults_nil (config : Config Float) : config.withDefaults [] = config := by
  simp [withDefaults]

def integers (config : Config Float) : List Nat :=
  [config.horizon, config.stateSampling.size, config.outcomeSampling.size,
    config.storage.capacityHint] ++ config.storage.kind.shards?.toList ++
      config.monitorInterval.toList

def floats (config : Config Float) : List Float :=
  [config.discount, config.stateSampling.reduction, config.outcomeSampling.reduction]

theorem optional?_elim {interval : Option Nat} (inside : ∀ n ∈ interval, n < UInt64.size) :
    Value.optional? Value.unsigned? (interval.elim .null .natural) = some interval := by
  cases interval with
  | none => rfl
  | some n =>
    have present : Value.optional? Value.unsigned? (.natural n) =
      (Value.natural n).unsigned?.map some := rfl
    simp [present, unsigned?_natural (inside n rfl)]

theorem wellFormed_elim (interval : Option Nat) :
    (interval.elim Value.null Value.natural).WellFormed := by
  cases interval with
  | none => exact .null
  | some n => exact wellFormed_natural n

theorem wellFormed_without (others : ∀ m ∈ extras, IsString m.1 ∧ m.2.WellFormed)
    (perm : members.Perm (config.kept removed ++ extras)) : (Value.object members).WellFormed := by
  have each : ∀ f ∈ config.fields, f.2.WellFormed := by
    simp [fields, Direction.wellFormed_toJson, Sampling.wellFormed_toJson,
      StorageConfig.wellFormed_toJson, wellFormed_natural, wellFormed_ofFloat, wellFormed_elim]
  rw [kept_eq] at perm
  apply wellFormed_of_perm isRecord_fieldNames (config.sublist_kept removed) _ others perm
  intro f member
  exact each f (List.mem_of_mem_filter member)

theorem ofJson?_of_perm (inside : ∀ n ∈ config.integers, n < UInt64.size)
    (reads : ∀ x ∈ config.floats, (Value.ofFloat x).float? = some x)
    (unknown : Unknown fieldNames extras)
    (perm : members.Perm (config.kept removed ++ extras)) :
    ofJson? (.object members) = some (config.withDefaults removed) := by
  rw [kept_eq] at perm
  obtain ⟨all, taken, found⟩ :=
    exists_fields_of_perm isRecord_fieldNames (config.sublist_kept removed) unknown perm
  have each : ∀ name ∈ fieldNames, all.lookup name =
      if name ∉ removed then config.fields.lookup name else none := by
    intro name listed
    rw [found name listed, lookup_filter fun name => decide (name ∉ removed)]
    simp only [decide_eq_true_eq]
  simp only [integers, List.forall_mem_append, List.forall_mem_cons, Option.mem_toList] at inside
  obtain ⟨⟨⟨horizon, states, outcomes, hint, -⟩, shards⟩, interval⟩ := inside
  simp only [floats, List.forall_mem_cons] at reads
  obtain ⟨discount, ofStates, ofOutcomes, -⟩ := reads
  have number : (Value.natural config.seed.toNat).unsigned? = some config.seed.toNat :=
    unsigned?_natural config.seed.toNat_lt
  have direction := optional_of_lookup (each "direction" (by decide)) (Direction.ofJson?_toJson _)
  have horizon := optional_of_lookup (each "horizon_length" (by decide)) (unsigned?_natural horizon)
  have discount := optional_of_lookup (each "discount_factor" (by decide)) discount
  have states := optional_of_lookup (each "state_sampling" (by decide))
    (Sampling.ofJson?_toJson states ofStates)
  have outcomes := optional_of_lookup (each "outcome_sampling" (by decide))
    (Sampling.ofJson?_toJson outcomes ofOutcomes)
  have storage := optional_of_lookup (each "storage" (by decide))
    (StorageConfig.ofJson?_toJson shards hint)
  have seed := optional_of_lookup (each "seed" (by decide)) number
  have interval := optional_of_lookup (each "monitor_interval_ms" (by decide))
    (optional?_elim interval)
  simp [ofJson?, taken, direction, horizon, discount, states, outcomes, storage, seed, interval,
    withDefaults, apply_ite UInt64.ofNat]

theorem validate_default : (default : Config Float).validate = .ok () := by
  have whole : Scalar.isFactor (default : Config Float).discount = true := by decide +kernel
  exact validate_eq_ok_iff.2 ⟨Nat.one_ne_zero, whole, (Option.some_ne_none 0).symm, rfl, rfl, rfl⟩

theorem validate_withDefaults (valid : config.validate = .ok ()) (names : List String) :
    (config.withDefaults names).validate = .ok () := by
  obtain ⟨horizon, discount, monitor, states, outcomes, storage⟩ := validate_eq_ok_iff.1 valid
  obtain ⟨horizon', discount', monitor', states', outcomes', storage'⟩ :=
    validate_eq_ok_iff.1 validate_default
  apply validate_eq_ok_iff.2
  simp only [withDefaults]
  refine ⟨?_, ?_, ?_, ?_, ?_, ?_⟩ <;> split <;> assumption

theorem read_of_perm (inside : ∀ n ∈ config.integers, n < UInt64.size)
    (reads : ∀ x ∈ config.floats, (Value.ofFloat x).float? = some x)
    (unknown : Unknown fieldNames extras) (perm : members.Perm (config.kept removed ++ extras))
    {document : Octets} (holds : Json.read? document = some (.object members)) :
    ((config.withDefaults removed).validate = .ok () →
      read document = .ok (config.withDefaults removed)) ∧
    ∀ e, (config.withDefaults removed).validate = .error e →
      read document = .error (.invalid e) := by
  have decoded := ofJson?_of_perm inside reads unknown perm
  constructor
  · intro valid
    simp [read, holds, decoded, valid]
  · intro e failed
    simp [read, holds, decoded, failed]

theorem read_write (inside : ∀ n ∈ config.integers, n < UInt64.size)
    (reads : ∀ x ∈ config.floats, (Value.ofFloat x).float? = some x)
    (valid : config.validate = .ok ()) : read config.write = .ok config := by
  have perm : (config.kept []).Perm (config.kept [] ++ []) := by simp
  have holds : Json.read? config.write = some (.object (config.kept [])) := by
    rw [write, toJson_eq_kept]
    exact Json.read?_render (wellFormed_without (by simp) perm)
  have unknown : Unknown fieldNames [] := by simp [Unknown]
  have answer := (read_of_perm inside reads unknown perm holds).1
  rw [withDefaults_nil] at answer
  exact answer valid

end Config

/-- A configuration whose integers have 64 bits and whose floats are finite is read as it was
written, if it is valid and its floats are read as they were written. Whatever fields are removed
from its JSON form, in whatever order the others stand and whatever unknown members stand among
them, a document of that object is read as the configuration with the defaults in the removed
fields, or as the error that its validation gives. That configuration is valid if the whole one is,
and there is such a document. -/
theorem configurations_survive_json (config : Config Float)
    (inside : ∀ n ∈ config.integers, n < UInt64.size)
    (finite : ∀ x ∈ config.floats, x.isFinite = true)
    (codec : ∀ x ∈ config.floats, x.isFinite = true → (Value.ofFloat x).float? = some x) :
    (config.validate = .ok () → Config.read config.write = .ok config) ∧
      ∀ (removed : List String) (extras members : List (Octets × Value)),
        Unknown Config.fieldNames extras → members.Perm (config.kept removed ++ extras) →
          (∀ document, Json.read? document = some (.object members) →
            ((config.withDefaults removed).validate = .ok () →
              Config.read document = .ok (config.withDefaults removed)) ∧
            ∀ e, (config.withDefaults removed).validate = .error e →
              Config.read document = .error (.invalid e)) ∧
          (config.validate = .ok () → (config.withDefaults removed).validate = .ok ()) ∧
          ((∀ m ∈ extras, IsString m.1 ∧ m.2.WellFormed) →
            Json.read? (Value.object members).render = some (.object members)) := by
  have reads : ∀ x ∈ config.floats, (Value.ofFloat x).float? = some x :=
    fun x member => codec x member (finite x member)
  constructor
  · exact Config.read_write inside reads
  · intro removed extras members unknown perm
    refine ⟨?_, ?_, ?_⟩
    · intro document holds
      exact Config.read_of_perm inside reads unknown perm holds
    · intro valid
      exact Config.validate_withDefaults valid removed
    · intro each
      exact Json.read?_render (Config.wellFormed_without each perm)

def Config.sharded : Config Float where
  direction := .maximize
  horizon := 5
  discount := 0.95
  stateSampling := .exhaustive
  outcomeSampling := ⟨.random, 20, 0.9⟩
  storage := ⟨.sharded 16, 4096⟩
  seed := 7
  monitorInterval := some 250

theorem configurations_survive_json_sharded :
    ((∀ n ∈ Config.sharded.integers, n < UInt64.size) ∧
      (∀ x ∈ Config.sharded.floats, x.isFinite = true) ∧
      (∀ x ∈ Config.sharded.floats, x.isFinite = true → (Value.ofFloat x).float? = some x) ∧
      Config.sharded.validate = .ok ()) ∧
    Config.read Config.sharded.write = .ok Config.sharded ∧
      Config.read (Value.object (Json.member "comment" (.array [.null]) ::
        (Config.sharded.kept ["direction", "seed"]).reverse)).render =
          .ok { Config.sharded with direction := .minimize, seed := 12345 } := by
  have inside : ∀ n ∈ Config.sharded.integers, n < UInt64.size := by decide +kernel
  have finite : ∀ x ∈ Config.sharded.floats, x.isFinite = true := by decide +kernel
  have codec : ∀ x ∈ Config.sharded.floats,
      x.isFinite = true → (Value.ofFloat x).float? = some x := by decide +kernel
  have valid : Config.sharded.validate = .ok () := eq_ok_of_toOption (by decide +kernel)
  obtain ⟨whole, parts⟩ := configurations_survive_json Config.sharded inside finite codec
  let comment := Json.member "comment" (.array [.null])
  have unknown : Unknown Config.fieldNames [comment] := by
    intro m member
    cases List.mem_singleton.1 member
    exact ⟨"comment", by decide +kernel, by decide⟩
  have perm : (comment :: (Config.sharded.kept ["direction", "seed"]).reverse).Perm
      (Config.sharded.kept ["direction", "seed"] ++ [comment]) :=
    ((List.reverse_perm _).cons comment).trans (List.perm_append_singleton comment _).symm
  have wellFormed : ∀ m ∈ [comment], IsString m.1 ∧ m.2.WellFormed := by
    intro m member
    cases List.mem_singleton.1 member
    exact ⟨isString_of_visible (by decide), .array (by simp [Value.WellFormed.null])⟩
  obtain ⟨reads, keeps, holds⟩ := parts ["direction", "seed"] [comment] _ unknown perm
  have answer := (reads _ (holds wellFormed)).1 (keeps valid)
  exact ⟨⟨inside, finite, codec, valid⟩, whole valid, answer⟩

end Horizon
