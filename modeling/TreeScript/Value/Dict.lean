/-!
# Dictionaries

A dictionary keeps its entries in the order in which their keys came. All keys are of one kind,
fixed from the start or by the first key that comes.
-/
namespace TreeScript

/-- A value that can be a key. -/
inductive Key where
  | int (n : Int64)
  | bool (b : Bool)
  | char (c : Char)
  | str (s : String)
  deriving DecidableEq, Repr

inductive KeyKind where
  | int | bool | char | str
  deriving DecidableEq, Repr

def KeyKind.name : KeyKind → String
  | .int => "int"
  | .bool => "bool"
  | .char => "char"
  | .str => "str"

def Key.kind : Key → KeyKind
  | .int _ => .int
  | .bool _ => .bool
  | .char _ => .char
  | .str _ => .str

/-- A dictionary with its entries. Once the kind of its keys is fixed it stays, also without
entries. -/
inductive Dict (α : Type) where
  /-- There are no entries, and the first key that comes fixes the kind. -/
  | undetermined
  | ofKind (kind : KeyKind) (entries : List (Key × α))
  deriving Repr, Inhabited

namespace Dict

variable {α : Type}

/-- The kind of the keys, once it is fixed. -/
def keyKind : Dict α → Option KeyKind
  | undetermined => none
  | ofKind kind _ => some kind

def entries : Dict α → List (Key × α)
  | undetermined => []
  | ofKind _ entries => entries

/-- The empty dictionary, with the kind of its keys if that is given. -/
def empty : Option KeyKind → Dict α
  | none => undetermined
  | some kind => ofKind kind []

def get? (d : Dict α) (key : Key) : Option α := d.entries.lookup key

def contains (d : Dict α) (key : Key) : Bool := (d.get? key).isSome

/-- Entries with the value at the key replaced, or with a new entry at the end. -/
def insertEntry (key : Key) (value : α) : List (Key × α) → List (Key × α)
  | [] => [(key, value)]
  | (k, v) :: rest =>
    if k = key then (k, value) :: rest else (k, v) :: insertEntry key value rest

/-- Writes at the key. A key that is there keeps its place; a new one comes last. -/
def insert (d : Dict α) (key : Key) (value : α) : Dict α :=
  ofKind (d.keyKind.getD key.kind) (insertEntry key value d.entries)

def removeEntry (key : Key) : List (Key × α) → List (Key × α)
  | [] => []
  | (k, v) :: rest => if k = key then rest else (k, v) :: removeEntry key rest

/-- Takes the entry at the key away; the others keep their order. -/
def erase (key : Key) : Dict α → Dict α
  | undetermined => undetermined
  | ofKind kind entries => ofKind kind (removeEntry key entries)

def size (d : Dict α) : Nat := d.entries.length

def isEmpty (d : Dict α) : Bool := d.entries.isEmpty

def keys (d : Dict α) : List Key := d.entries.map Prod.fst

def values (d : Dict α) : List α := d.entries.map Prod.snd

theorem entries_empty (kind : Option KeyKind) : (empty kind : Dict α).entries = [] := by
  cases kind <;> rfl

theorem entries_erase (d : Dict α) (key : Key) :
    (d.erase key).entries = removeEntry key d.entries := by
  cases d <;> rfl

theorem lookup_insertEntry (key other : Key) (value : α) (entries : List (Key × α)) :
    (insertEntry key value entries).lookup other =
      if other = key then some value else entries.lookup other := by
  induction entries with
  | nil => by_cases h : other = key <;> simp [insertEntry, h]
  | cons entry rest ih =>
    obtain ⟨k, v⟩ := entry
    simp only [insertEntry]
    split
    · next h =>
      subst h
      by_cases ho : other = k
      · simp [ho]
      · simp [List.lookup_cons, beq_false_of_ne ho, ho]
    · next h =>
      by_cases ho : other = k
      · subst ho
        simp [h]
      · simp [List.lookup_cons, beq_false_of_ne ho, ih]

theorem get?_insert (d : Dict α) (key other : Key) (value : α) :
    (d.insert key value).get? other = if other = key then some value else d.get? other :=
  lookup_insertEntry key other value d.entries

/-- Writing again what stands at a key changes nothing. -/
theorem insertEntry_eq_self {key : Key} {value : α} {entries : List (Key × α)}
    (there : entries.lookup key = some value) : insertEntry key value entries = entries := by
  induction entries with
  | nil => cases there
  | cons entry rest ih =>
    obtain ⟨k, v⟩ := entry
    rw [insertEntry]
    rw [List.lookup_cons] at there
    by_cases h : k = key
    · rw [h, beq_self_eq_true] at there
      cases there
      rw [if_pos h]
    · rw [beq_false_of_ne (Ne.symm h)] at there
      rw [if_neg h, ih there]

theorem keyKind_insert {d : Dict α} {key : Key} {old : α} (there : d.get? key = some old)
    (value : α) : (d.insert key value).keyKind = d.keyKind := by
  cases d with
  | undetermined => cases there
  | ofKind => rfl

theorem insert_eq_self {d : Dict α} {key : Key} {value : α} (there : d.get? key = some value) :
    d.insert key value = d := by
  cases d with
  | undetermined => cases there
  | ofKind kind entries => exact congrArg (ofKind kind) (insertEntry_eq_self there)

theorem get?_eq_none_iff {d : Dict α} {key : Key} : d.get? key = none ↔ key ∉ d.keys := by
  simp only [get?, keys, List.lookup_eq_none_iff, List.mem_map, not_exists, not_and, bne_iff_ne]
  exact ⟨fun h entry mem same => h entry mem same.symm,
    fun h entry mem same => h entry mem same.symm⟩

theorem map_fst_insertEntry (key : Key) (value : α) (entries : List (Key × α)) :
    (insertEntry key value entries).map Prod.fst =
      if key ∈ entries.map Prod.fst then entries.map Prod.fst
      else entries.map Prod.fst ++ [key] := by
  induction entries with
  | nil => rfl
  | cons entry rest ih =>
    obtain ⟨k, v⟩ := entry
    simp only [insertEntry]
    by_cases h : k = key
    · simp [h]
    · have h' : key ≠ k := fun e => h e.symm
      by_cases hm : key ∈ rest.map Prod.fst <;> simp_all

/-- A key that is there keeps its place, and a new one comes last. -/
theorem keys_insert (d : Dict α) (key : Key) (value : α) :
    (d.insert key value).keys = if key ∈ d.keys then d.keys else d.keys ++ [key] :=
  map_fst_insertEntry key value d.entries

end Dict

end TreeScript
