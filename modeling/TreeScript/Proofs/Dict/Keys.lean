import Mathlib.Data.List.Nodup
import TreeScript.Value.Place

/-!
# Keys of dictionaries

A proper dictionary has every key once, and all keys are of the kind that it has fixed. So look-up
finds every entry. Writing at a key that the dictionary takes, removing a key and replacing values
leave a proper dictionary.
-/
namespace TreeScript

namespace Dict

variable {α β : Type} {d : Dict α} {key other : Key} {value : α}

/-- The dictionary takes the key: it has not fixed the kind of its keys, or the key is of that
kind. -/
def Takes (d : Dict α) (key : Key) : Prop := ∀ kind ∈ d.keyKind, kind = key.kind

/-- Every key is there once, and all are of the kind that is fixed. -/
structure Proper (d : Dict α) : Prop where
  distinct : d.keys.Nodup
  kinds : ∀ key ∈ d.keys, d.keyKind = some key.kind

theorem mem_keys_iff : key ∈ d.keys ↔ (d.get? key).isSome := by
  rw [← not_iff_not, ← get?_eq_none_iff, Option.not_isSome_iff_eq_none]

theorem mem_keys_of_get? (found : d.get? key = some value) : key ∈ d.keys := by
  rw [mem_keys_iff, found]
  rfl

theorem lookup_eq_some_iff_mem {entries : List (Key × α)}
    (distinct : (entries.map Prod.fst).Nodup) :
    entries.lookup key = some value ↔ (key, value) ∈ entries := by
  induction entries with
  | nil => simp
  | cons entry rest ih =>
    obtain ⟨k, v⟩ := entry
    rw [List.map_cons, List.nodup_cons] at distinct
    by_cases same : key = k
    · subst same
      have absent : (key, value) ∉ rest :=
        fun mem => distinct.1 (List.mem_map.mpr ⟨(key, value), mem, rfl⟩)
      simp [absent, eq_comm]
    · simp [List.lookup_cons, beq_false_of_ne same, same, ih distinct.2]

theorem get?_eq_some_iff (distinct : d.keys.Nodup) :
    d.get? key = some value ↔ (key, value) ∈ d.entries := lookup_eq_some_iff_mem distinct

theorem proper_empty (kind : Option KeyKind) : (empty kind : Dict α).Proper := by
  constructor <;> simp [keys, entries_empty]

theorem Takes.keyKind_insert (takes : d.Takes key) :
    (d.insert key value).keyKind = some key.kind := by
  show some (d.keyKind.getD key.kind) = some key.kind
  cases fixed : d.keyKind with
  | none => rfl
  | some kind => exact congrArg some (takes kind fixed)

/-- A key that is there is taken. -/
theorem Proper.takes (proper : d.Proper) (there : key ∈ d.keys) : d.Takes key := by
  intro kind fixed
  rw [proper.kinds key there] at fixed
  exact (Option.some.inj fixed).symm

theorem Proper.insert (proper : d.Proper) (takes : d.Takes key) (value : α) :
    (d.insert key value).Proper := by
  by_cases there : key ∈ d.keys
  · have same : (d.insert key value).keys = d.keys := by rw [keys_insert, if_pos there]
    refine ⟨same ▸ proper.distinct, fun k mem => ?_⟩
    rw [takes.keyKind_insert, ← proper.kinds key there]
    exact proper.kinds k (same ▸ mem)
  · have added : (d.insert key value).keys = d.keys ++ [key] := by rw [keys_insert, if_neg there]
    constructor
    · rw [added, List.nodup_append]
      refine ⟨proper.distinct, List.nodup_singleton key, ?_⟩
      rintro k mem _ (_ | _) rfl
      · exact there mem
      · contradiction
    · intro k mem
      rw [takes.keyKind_insert]
      rw [added, List.mem_append, List.mem_singleton] at mem
      rcases mem with mem | rfl
      · exact congrArg some (takes _ (proper.kinds k mem)).symm
      · rfl

theorem insertEntry_of_absent {entries : List (Key × α)}
    (absent : key ∉ entries.map Prod.fst) (value : α) :
    insertEntry key value entries = entries ++ [(key, value)] := by
  induction entries with
  | nil => rfl
  | cons entry rest ih =>
    obtain ⟨k, v⟩ := entry
    rw [List.map_cons, List.mem_cons, not_or] at absent
    rw [insertEntry, if_neg (Ne.symm absent.1), ih absent.2, List.cons_append]

theorem keyKind_erase : (d.erase key).keyKind = d.keyKind := by
  cases d <;> rfl

theorem map_fst_removeEntry (key : Key) (entries : List (Key × α)) :
    (removeEntry key entries).map Prod.fst = (entries.map Prod.fst).erase key := by
  induction entries with
  | nil => rfl
  | cons entry rest ih =>
    obtain ⟨k, v⟩ := entry
    by_cases same : k = key
    · simp [removeEntry, same]
    · simp [removeEntry, same, ih]

theorem keys_erase : (d.erase key).keys = d.keys.erase key := by
  rw [keys, entries_erase, map_fst_removeEntry]
  rfl

theorem Proper.erase (proper : d.Proper) (key : Key) : (d.erase key).Proper where
  distinct := keys_erase ▸ proper.distinct.erase key
  kinds k mem := by
    rw [keyKind_erase]
    rw [keys_erase] at mem
    exact proper.kinds k (List.mem_of_mem_erase mem)

theorem lookup_removeEntry {entries : List (Key × α)}
    (distinct : (entries.map Prod.fst).Nodup) :
    (removeEntry key entries).lookup other =
      if other = key then none else entries.lookup other := by
  induction entries with
  | nil => simp [removeEntry]
  | cons entry rest ih =>
    obtain ⟨k, v⟩ := entry
    rw [List.map_cons, List.nodup_cons] at distinct
    rw [removeEntry]
    by_cases same : k = key
    · subst same
      rw [if_pos rfl]
      by_cases here : other = k
      · subst here
        rw [if_pos rfl, List.lookup_eq_none_iff]
        rintro ⟨k, v⟩ mem
        exact bne_iff_ne.mpr fun same => distinct.1 (List.mem_map.mpr ⟨(k, v), mem, same.symm⟩)
      · simp [List.lookup_cons, beq_false_of_ne here, here]
    · rw [if_neg same, List.lookup_cons, List.lookup_cons, ih distinct.2]
      by_cases here : other = k
      · simp [here, same]
      · simp [beq_false_of_ne here]

theorem get?_erase (distinct : d.keys.Nodup) :
    (d.erase key).get? other = if other = key then none else d.get? other := by
  rw [get?, entries_erase, lookup_removeEntry distinct]
  rfl

/-- Only the kind and the keys decide whether a dictionary is proper. -/
theorem Proper.of_keys (proper : d.Proper) {e : Dict β} (kind : e.keyKind = d.keyKind)
    (keys : e.keys = d.keys) : e.Proper :=
  ⟨keys ▸ proper.distinct, fun key mem => kind ▸ proper.kinds key (keys ▸ mem)⟩

end Dict

/-- A value is a key of a dictionary just when it can be a key at all and the dictionary takes
it. -/
theorem Value.keyOf_eq_ok_iff {α : Type} {h : Handles} {d : Dict α} {v : Value} {key : Key} :
    keyOf h d v = .ok key ↔ v.asKey? = Option.some key ∧ d.Takes key := by
  unfold keyOf Dict.Takes
  cases v.asKey? with
  | none => simp
  | some k =>
    cases d.keyKind with
    | none => simp
    | some kind =>
      by_cases same : kind = k.kind
      · simp only [if_pos same, Except.ok.injEq, Option.some.injEq, Option.mem_some_iff]
        exact ⟨fun is => ⟨is, fun _ here => by rw [← here, same, is]⟩, And.left⟩
      · simp only [if_neg same, Option.mem_some_iff, reduceCtorEq, false_iff, not_and]
        rintro ⟨⟩ takes
        exact same (takes kind rfl)

end TreeScript
