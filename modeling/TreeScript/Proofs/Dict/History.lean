import Mathlib.Data.List.Induction
import TreeScript.Member.Entries
import TreeScript.Proofs.Machine.Copy
import TreeScript.Proofs.Places.Slots

/-!
# The history of a dictionary

What has happened to a dictionary tells all there is to it: the kind of its keys, which keys are
there and in which order, and what stands at them. A request that does not fit happens to no
dictionary, and it leaves the dictionary as it is.
-/
namespace TreeScript

/-- The second value is a copy of the first, made at some time. -/
def Value.Copied (v w : Value) : Prop := ∃ depth s t, Store.copy depth v s = Option.some (w, t)

namespace Dict

/-- What happens to a dictionary. Histories have the latest event first. -/
inductive Event where
  | wrote (key : Key) (value : Value)
  | removed (key : Key)
  | copied

/-- The kind of the keys: the given one, or else that of the first key that was written. -/
def kindOf (given : Option KeyKind) : List Event → Option KeyKind
  | [] => given
  | .wrote key _ :: earlier => (kindOf given earlier).or (some key.kind)
  | .removed _ :: earlier => kindOf given earlier
  | .copied :: earlier => kindOf given earlier

/-- The time of the first write at the key since it was last removed, if the key is there. -/
def since (key : Key) : List Event → Option Nat
  | [] => none
  | .wrote k _ :: earlier =>
    if k = key then some ((since key earlier).getD earlier.length) else since key earlier
  | .removed k :: earlier => if k = key then none else since key earlier
  | .copied :: earlier => since key earlier

/-- The value is the last that was written at the key, which has not been removed since, or what
copying the dictionary has made of it. -/
def Holds (key : Key) : List Event → Value → Prop
  | [], _ => False
  | .wrote k value :: earlier, v => if k = key then v = value else Holds key earlier v
  | .removed k :: earlier, v => k ≠ key ∧ Holds key earlier v
  | .copied :: earlier, v => ∃ old : Value, Holds key earlier old ∧ old.Copied v

/-- Both keys are there, and the first has been there for longer. -/
def Before (history : List Event) (key other : Key) : Prop :=
  ∃ i j, since key history = some i ∧ since other history = some j ∧ i < j

/-- The dictionary is as its history tells. -/
structure Accords (given : Option KeyKind) (history : List Event) (d : Dict Value) : Prop where
  kind : d.keyKind = kindOf given history
  kinds : ∀ key ∈ d.keys, d.keyKind = some key.kind
  distinct : d.keys.Nodup
  there : ∀ key, key ∈ d.keys ↔ (since key history).isSome
  order : d.keys.Pairwise (Before history)
  values : ∀ key v, d.get? key = some v → Holds key history v

/-- What a program asks of a dictionary. -/
inductive Request where
  | insert (index value : Value)
  /-- Writes at a key that has to be there. -/
  | overwrite (index value : Value)
  | remove (index : Value)

namespace Request

def index : Request → Value
  | insert index _ => index
  | overwrite index _ => index
  | remove index => index

/-- What the request does to the value that it is made of. -/
def run (h : Handles) : Request → Edit Value
  | insert index value => Member.Entries.insert h [index, value]
  | overwrite index value => Value.editElement h index fun _ => .ok .unit value
  | remove index => Member.Entries.remove h [index]

end Request

/-- The key that an index names in a dictionary with this history. -/
def keyAt? (given : Option KeyKind) (history : List Event) (index : Value) : Option Key :=
  index.asKey?.filter fun key => (kindOf given history).getD key.kind = key.kind

/-- What happens when this is asked of a dictionary with this history. -/
def Request.event? (given : Option KeyKind) (history : List Event) (r : Request) : Option Event :=
  match keyAt? given history r.index with
  | none => none
  | some key =>
    match r with
    | insert _ value => some (.wrote key value)
    | overwrite _ value => if (since key history).isSome then some (.wrote key value) else none
    | remove _ => if (since key history).isSome then some (.removed key) else none

/-- A dictionary that began without entries, the kind of its keys given or not, and what has
happened to it. -/
inductive Lives (given : Option KeyKind) : List Event → Dict Value → Prop
  | empty : Lives given [] (.empty given)
  | asked {history : List Event} {d d' : Dict Value} (lives : Lives given history d) (h : Handles)
    (r : Request) (leaves : Edit.left (r.run h (.dict d)) = .dict d') :
    Lives given ((r.event? given history).toList ++ history) d'
  | copied {history : List Event} {d d' : Dict Value} {s t : Store} {depth : Nat}
    (lives : Lives given history d) (copy : s.copy depth (.dict d) = some (.dict d', t)) :
    Lives given (.copied :: history) d'

variable {given : Option KeyKind} {history : List Event} {d d' : Dict Value} {key other : Key}
  {value : Value} {h : Handles}

theorem since_lt : ∀ {history : List Event} {i : Nat}, since key history = some i →
    i < history.length
  | .wrote k _ :: earlier, i, at_ => by
    rw [since] at at_
    rw [List.length_cons]
    split at at_
    · cases before : since key earlier with
      | none =>
        rw [before] at at_
        cases at_
        exact Nat.lt_succ_self _
      | some j =>
        rw [before] at at_
        cases at_
        exact Nat.lt_succ_of_lt (since_lt before)
    · exact Nat.lt_succ_of_lt (since_lt at_)
  | .removed k :: earlier, i, at_ => by
    rw [since] at at_
    split at at_
    · cases at_
    · exact Nat.lt_succ_of_lt (since_lt at_)
  | .copied :: earlier, i, at_ => Nat.lt_succ_of_lt (since_lt at_)

theorem Before.congr {history' : List Event} (before : Before history key other)
    (key_same : since key history' = since key history)
    (other_same : since other history' = since other history) : Before history' key other := by
  obtain ⟨i, j, hi, hj, lt⟩ := before
  exact ⟨i, j, key_same.trans hi, other_same.trans hj, lt⟩

namespace Accords

theorem proper (accords : Accords given history d) : d.Proper := ⟨accords.distinct, accords.kinds⟩

theorem empty (given : Option KeyKind) : Accords given [] (.empty given) := by
  cases given <;> constructor <;> simp [Dict.empty, keys, entries, keyKind, kindOf, since, get?]

theorem since_isSome (accords : Accords given history d) (key : Key) :
    (since key history).isSome = d.contains key := by
  rw [Bool.eq_iff_iff, ← accords.there, mem_keys_iff, contains]

/-- A key that is there keeps its place when it is written at, and a new one comes last. -/
theorem wrote (accords : Accords given history d) (takes : d.Takes key) (value : Value) :
    Accords given (.wrote key value :: history) (d.insert key value) := by
  have proper := accords.proper.insert takes value
  have kept {k : Key} (mem : k ∈ d.keys) :
      since k (.wrote key value :: history) = since k history := by
    rw [since]
    by_cases same : key = k
    · obtain ⟨i, at_⟩ := Option.isSome_iff_exists.mp ((accords.there k).mp mem)
      rw [if_pos same, at_]
      rfl
    · rw [if_neg same]
  have order : d.keys.Pairwise (Before (.wrote key value :: history)) :=
    accords.order.imp_of_mem fun ha hb before => before.congr (kept ha) (kept hb)
  refine ⟨?_, proper.kinds, proper.distinct, fun k => ?_, ?_, fun k v found => ?_⟩
  · rw [takes.keyKind_insert, kindOf, ← accords.kind]
    cases fixed : d.keyKind with
    | none => rfl
    | some kind => exact congrArg some (takes kind fixed).symm
  · rw [mem_keys_iff, get?_insert, since]
    by_cases same : k = key
    · simp [same]
    · rw [if_neg same, if_neg (Ne.symm same), ← accords.there, mem_keys_iff]
  · rw [keys_insert]
    split
    · exact order
    · rename_i new
      have now : since key (.wrote key value :: history) = some history.length := by
        have first : since key history = none := by
          rw [← Option.not_isSome_iff_eq_none, ← accords.there]
          exact new
        rw [since, if_pos rfl, first]
        rfl
      rw [List.pairwise_append]
      refine ⟨order, List.pairwise_singleton _ key, fun k mem k' last => ?_⟩
      obtain ⟨i, at_⟩ := Option.isSome_iff_exists.mp ((accords.there k).mp mem)
      rw [List.mem_singleton.mp last]
      exact ⟨i, history.length, (kept mem).trans at_, now, since_lt at_⟩
  · rw [get?_insert] at found
    rw [Holds]
    by_cases same : k = key
    · rw [if_pos same] at found
      rw [if_pos same.symm]
      exact (Option.some.inj found).symm
    · rw [if_neg same] at found
      rw [if_neg (Ne.symm same)]
      exact accords.values k v found

/-- The others stay in order when a key is removed. -/
theorem removed (accords : Accords given history d) (key : Key) :
    Accords given (.removed key :: history) (d.erase key) := by
  have proper := accords.proper.erase key
  have kept {k : Key} (mem : k ∈ (d.erase key).keys) :
      since k (.removed key :: history) = since k history := by
    rw [keys_erase, accords.distinct.mem_erase_iff] at mem
    rw [since, if_neg (Ne.symm mem.1)]
  refine ⟨?_, proper.kinds, proper.distinct, fun k => ?_, ?_, fun k v found => ?_⟩
  · rw [keyKind_erase, accords.kind, kindOf]
  · rw [mem_keys_iff, get?_erase accords.distinct, since]
    by_cases same : k = key
    · simp [same]
    · rw [if_neg same, if_neg (Ne.symm same), ← accords.there, mem_keys_iff]
  · have order : (d.erase key).keys.Pairwise (Before history) := by
      rw [keys_erase]
      exact accords.order.sublist (List.erase_sublist (a := key))
    exact order.imp_of_mem fun ha hb before => before.congr (kept ha) (kept hb)
  · rw [get?_erase accords.distinct] at found
    by_cases same : k = key
    · rw [if_pos same] at found
      cases found
    · rw [if_neg same] at found
      exact ⟨Ne.symm same, accords.values k v found⟩

/-- Copying leaves kind and keys, and it copies each value. -/
theorem copied (accords : Accords given history d) (kind : d'.keyKind = d.keyKind)
    (keys : d'.keys = d.keys)
    (copies : ∀ key v, d'.get? key = some v → ∃ old : Value, d.get? key = some old ∧ old.Copied v) :
    Accords given (.copied :: history) d' := by
  have proper := accords.proper.of_keys kind keys
  refine ⟨kind.trans accords.kind, proper.kinds, proper.distinct, fun k => ?_, ?_,
    fun k v found => ?_⟩
  · rw [keys, since]
    exact accords.there k
  · rw [keys]
    exact accords.order.imp fun before => before.congr rfl rfl
  · obtain ⟨old, there, copy⟩ := copies k v found
    exact ⟨old, accords.values k old there, copy⟩

end Accords

theorem getD_keyKind_eq_iff {α : Type} {d : Dict α} :
    d.keyKind.getD key.kind = key.kind ↔ d.Takes key := by
  unfold Takes
  cases d.keyKind <;> simp

namespace Accords

/-- An index names a key by the history just when it does in the dictionary. -/
theorem keyAt?_eq_some_iff (accords : Accords given history d) (h : Handles) {index : Value} :
    keyAt? given history index = some key ↔ Value.keyOf h d index = .ok key := by
  rw [keyAt?, Option.filter_eq_some_iff, decide_eq_true_iff, ← accords.kind, getD_keyKind_eq_iff,
    Value.keyOf_eq_ok_iff]

theorem keyOf_of_keyAt?_eq_none (accords : Accords given history d) (h : Handles) {index : Value}
    (none : keyAt? given history index = none) : ∃ fault, Value.keyOf h d index = .error fault := by
  cases named : Value.keyOf h d index with
  | error fault => exact ⟨fault, rfl⟩
  | ok key =>
    rw [(accords.keyAt?_eq_some_iff h).mpr named] at none
    cases none

end Accords

theorem insertAt_dict (h : Handles) (d : Dict Value) (index value : Value) :
    Member.Entries.insertAt h index value (.dict d) =
      Value.keyOf h d index >>= fun key => .ok (.dict (d.insert key value)) := rfl

theorem removeAt_dict (h : Handles) (d : Dict Value) (index : Value) :
    Member.Entries.removeAt h index (.dict d) =
      Value.keyOf h d index >>= fun key =>
        if d.contains key then .ok (.dict (d.erase key))
        else .error (.keyNotFound (index.quoted h)) := rfl

namespace Request

variable {index : Value}

theorem run_refused {fault : Fault} (r : Request)
    (refused : Value.keyOf h d r.index = .error fault) :
    r.run h (.dict d) = .error fault (.dict d) := by
  cases r with
  | insert at_ value =>
    have refused : Value.keyOf h d at_ = .error fault := refused
    rw [run, Member.Entries.insert, Edit.replace_then, insertAt_dict, refused]
    rfl
  | overwrite at_ value =>
    have refused : Value.keyOf h d at_ = .error fault := refused
    simp only [run, Value.editElement, refused]
  | remove at_ =>
    have refused : Value.keyOf h d at_ = .error fault := refused
    rw [run, Member.Entries.remove, Edit.replace_then, removeAt_dict, refused]
    rfl

theorem run_insert (named : Value.keyOf h d index = .ok key) (value : Value) :
    (insert index value).run h (.dict d) = .ok .unit (.dict (d.insert key value)) := by
  rw [run, Member.Entries.insert, Edit.replace_then, insertAt_dict, named]
  rfl

theorem run_overwrite {old : Value} (named : Value.keyOf h d index = .ok key)
    (there : d.get? key = some old) (value : Value) :
    (overwrite index value).run h (.dict d) = .ok .unit (.dict (d.insert key value)) := by
  simp only [run, Value.editElement, named, there]
  rfl

theorem run_overwrite_absent (named : Value.keyOf h d index = .ok key)
    (absent : d.get? key = none) (value : Value) :
    (overwrite index value).run h (.dict d) =
      .error (.keyNotFound (index.quoted h)) (.dict d) := by
  simp only [run, Value.editElement, named, absent]

theorem run_remove (named : Value.keyOf h d index = .ok key) (there : d.contains key = true) :
    (remove index).run h (.dict d) = .ok .unit (.dict (d.erase key)) := by
  have done : Member.Entries.removeAt h index (.dict d) = .ok (.dict (d.erase key)) := by
    rw [removeAt_dict, named]
    exact if_pos there
  rw [run, Member.Entries.remove, Edit.replace_then, done]

theorem run_remove_absent (named : Value.keyOf h d index = .ok key)
    (absent : d.contains key = false) :
    (remove index).run h (.dict d) = .error (.keyNotFound (index.quoted h)) (.dict d) := by
  have fails : Member.Entries.removeAt h index (.dict d) =
      .error (.keyNotFound (index.quoted h)) := by
    rw [removeAt_dict, named]
    exact if_neg (Bool.not_eq_true _ ▸ absent)
  rw [run, Member.Entries.remove, Edit.replace_then, fails]

end Request

/-- A request that fits is granted, and what it brings about goes down in history. One that does
not fit fails, and it leaves the dictionary as it is. -/
theorem Accords.answers (accords : Accords given history d) (h : Handles) (r : Request) :
    match r.event? given history with
    | some event =>
      ∃ d', r.run h (.dict d) = .ok .unit (.dict d') ∧ Accords given (event :: history) d'
    | none => ∃ fault, r.run h (.dict d) = .error fault (.dict d) := by
  rw [Request.event?]
  cases at_ : keyAt? given history r.index with
  | none =>
    obtain ⟨fault, refused⟩ := accords.keyOf_of_keyAt?_eq_none h at_
    exact ⟨fault, r.run_refused refused⟩
  | some key =>
    have named := (accords.keyAt?_eq_some_iff h).mp at_
    have takes : d.Takes key := (Value.keyOf_eq_ok_iff.mp named).2
    cases r with
    | insert index value => exact ⟨_, Request.run_insert named value, accords.wrote takes value⟩
    | overwrite index value =>
      simp only [accords.since_isSome key, contains]
      cases there : d.get? key with
      | none => exact ⟨_, Request.run_overwrite_absent named there value⟩
      | some old => exact ⟨_, Request.run_overwrite named there value, accords.wrote takes value⟩
    | remove index =>
      simp only [accords.since_isSome key]
      cases there : d.contains key with
      | false => exact ⟨_, Request.run_remove_absent named there⟩
      | true => exact ⟨_, Request.run_remove named there, accords.removed key⟩

/-- The members that read tell what stands at a key and whether it is there. -/
theorem Accords.reads (accords : Accords given history d) (h : Handles) (index : Value) :
    match keyAt? given history index with
    | some key => Member.Entries.get h (.dict d) [index] = .ok (.ofOption (d.get? key)) ∧
        Member.Entries.hasKey h (.dict d) [index] = .ok (.bool (since key history).isSome)
    | none => ∃ fault, Member.Entries.get h (.dict d) [index] = .error fault ∧
        Member.Entries.hasKey h (.dict d) [index] = .error fault := by
  have get : Member.Entries.get h (.dict d) [index] =
      Value.keyOf h d index >>= fun key => .ok (.ofOption (d.get? key)) := rfl
  have hasKey : Member.Entries.hasKey h (.dict d) [index] =
      Value.keyOf h d index >>= fun key => .ok (.bool (d.contains key)) := rfl
  cases at_ : keyAt? given history index with
  | none =>
    obtain ⟨fault, refused⟩ := accords.keyOf_of_keyAt?_eq_none h at_
    exact ⟨fault, by rw [get, refused]; rfl, by rw [hasKey, refused]; rfl⟩
  | some key =>
    have named := (accords.keyAt?_eq_some_iff h).mp at_
    refine ⟨by rw [get, named]; rfl, ?_⟩
    rw [hasKey, named, accords.since_isSome]
    rfl

theorem of_copy {s t : Store} {depth : Nat} (copy : s.copy depth (.dict d) = some (.dict d', t)) :
    d'.keyKind = d.keyKind ∧ d'.keys = d.keys ∧
      ∀ key v, d'.get? key = some v → ∃ old : Value, d.get? key = some old ∧ old.Copied v := by
  cases d with
  | undetermined =>
    cases copy
    exact ⟨rfl, rfl, nofun⟩
  | ofKind kind entries =>
    obtain ⟨⟨entries', t'⟩, copied, same⟩ := Option.map_eq_some_iff.mp copy
    cases same
    refine ⟨rfl, Store.Copying.map_fst_copyEntries entries s entries' t copied,
      fun key v found => ?_⟩
    obtain ⟨old, s₁, t₁, there, made⟩ :=
      Store.Copying.lookup_copyEntries entries s entries' t copied found
    exact ⟨old, there, depth, s₁, t₁, made⟩

namespace Lives

theorem accords (lives : Lives given history d) : Accords given history d := by
  induction lives with
  | empty => exact .empty given
  | @asked history d d' _ h r leaves ih =>
    have answer := ih.answers h r
    cases happens : r.event? given history with
    | none =>
      rw [happens] at answer
      obtain ⟨fault, failed⟩ := answer
      rw [failed] at leaves
      cases leaves
      exact ih
    | some event =>
      rw [happens] at answer
      obtain ⟨d₁, done, accords⟩ := answer
      rw [done] at leaves
      cases leaves
      exact accords
  | copied _ copy ih =>
    obtain ⟨kind, keys, copies⟩ := of_copy copy
    exact ih.copied kind keys copies

theorem granted {event : Event} (lives : Lives given history d) (h : Handles) (r : Request)
    (happens : r.event? given history = some event)
    (done : r.run h (.dict d) = .ok .unit (.dict d')) : Lives given (event :: history) d' := by
  have leaves : Edit.left (r.run h (.dict d)) = .dict d' := by rw [done]; rfl
  have later := lives.asked h r leaves
  rwa [happens] at later

end Lives

/-- Proper dictionaries have a history: they can come about by writing their entries in order. -/
theorem Proper.lives (h : Handles) (proper : d.Proper) : ∃ history, Lives d.keyKind history d := by
  cases d with
  | undetermined => exact ⟨[], .empty⟩
  | ofKind kind entries =>
    induction entries using List.reverseRecOn with
    | nil => exact ⟨[], .empty⟩
    | append_singleton entries entry ih =>
      obtain ⟨key, value⟩ := entry
      have keys : (ofKind kind (entries ++ [(key, value)])).keys =
          (ofKind kind entries).keys ++ [key] := List.map_append
      obtain ⟨first, -, apart⟩ := List.nodup_append.mp (keys ▸ proper.distinct)
      have kinds (k : Key) (mem : k ∈ (ofKind kind entries).keys ++ [key]) :
          kind = k.kind := Option.some.inj (proper.kinds k (keys ▸ mem))
      have absent : key ∉ (ofKind kind entries).keys :=
        fun mem => apart key mem key List.mem_cons_self rfl
      have added : (ofKind kind entries).insert key value =
          ofKind kind (entries ++ [(key, value)]) :=
        congrArg (ofKind kind) (insertEntry_of_absent absent value)
      obtain ⟨history, lives⟩ := ih ⟨first, fun k mem =>
        congrArg some (kinds k (List.mem_append_left _ mem))⟩
      have named : Value.keyOf h (ofKind kind entries) (.ofKey key) = .ok key := by
        refine Value.keyOf_eq_ok_iff.mpr ⟨by cases key <;> rfl, ?_⟩
        rintro _ ⟨⟩
        exact kinds key (List.mem_append_right _ List.mem_cons_self)
      refine ⟨_, lives.asked h (.insert (.ofKey key) value) ?_⟩
      rw [Request.run_insert named, added]
      rfl

theorem proper_iff_lives (h : Handles) : d.Proper ↔ ∃ given history, Lives given history d := by
  constructor
  · exact fun proper => ⟨_, proper.lives h⟩
  · rintro ⟨given, history, lives⟩
    exact lives.accords.proper

end Dict

end TreeScript
