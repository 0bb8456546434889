import TreeScript.Proofs.Value.Edits

/-!
# Members and intrinsics name nothing new

What a member of a built-in value reads from it, and what an intrinsic makes of its arguments, names
nothing but what they name. A member that edits its receiver edits it soundly and gives the unit
back. No fault of them is stray.
-/
namespace TreeScript

open Value (Hereditary Replaces)

variable {V : Value → Prop} [Hereditary V] {h : Handles} {recv : Value} {args : List Value}

theorem gives_arity {α : Type} {q : α → Prop} (name : String) (expected : Nat) (args : List Value) :
    Gives q (Member.arity name expected args) := .error rfl

namespace Member

/-- A member that reads gives values that name nothing new. -/
def Reads (f : Handles → Value → List Value → Except Fault Value) : Prop :=
  ∀ (V : Value → Prop) [Hereditary V] h recv args, V recv → (∀ v ∈ args, V v) →
    Gives V (f h recv args)

/-- A member that edits its receiver does so soundly. -/
def EditsSoundly (f : Handles → List Value → Edit Value) : Prop :=
  ∀ (V : Value → Prop) [Hereditary V] h args, (∀ v ∈ args, V v) → Edit.Sound h V V (f h args)

theorem plain_intArg (name : String) (v : Value) : Plain (intArg name v) := by
  cases v <;> first | exact .ok trivial | exact .error rfl

theorem plain_strArg (name : String) (v : Value) : Plain (strArg name v) := by
  cases v <;> first | exact .ok trivial | exact .error rfl

namespace Items

theorem gives_itemsOf (hr : V recv) : Gives (fun items => ∀ v ∈ items, V v) (itemsOf h recv) := by
  cases recv with
  | list items => exact .ok (Hereditary.list.mp hr)
  | tuple items => exact .ok (Hereditary.tuple.mp hr)
  | _ => exact .error rfl

theorem reads_len : Reads len := by
  intro V _ h recv args hr ha
  unfold len
  split
  · exact (gives_itemsOf hr).bind fun _ _ => .ok (Hereditary.ofLength _)
  · exact gives_arity _ _ _

theorem reads_nth : Reads nth := by
  intro V _ h recv args hr ha
  unfold nth
  split
  · refine (gives_itemsOf hr).bind fun items hi => ?_
    refine (plain_intArg _ _).bind fun n _ => (Value.plain_checkIndex _ _).bind fun i _ => ?_
    exact .ok (Hereditary.getD hi i)
  · exact gives_arity _ _ _

theorem reads_back : Reads back := by
  intro V _ h recv args hr ha
  unfold back
  split
  · refine (gives_itemsOf hr).bind fun items hi => .ok ?_
    rw [List.getLastD_eq_getLast?]
    cases hl : items.getLast? with
    | none => exact (Hereditary.bare rfl)
    | some v => exact hi v (List.mem_of_getLast? hl)
  · exact gives_arity _ _ _

theorem reads_rev : Reads rev := by
  intro V _ h recv args hr ha
  unfold rev
  split
  · refine (gives_itemsOf hr).bind fun items hi => ?_
    have reversed : ∀ v ∈ items.reverse, V v := fun v hv => hi v (List.mem_reverse.mp hv)
    split
    · exact .ok (Hereditary.tuple.mpr reversed)
    · exact .ok (Hereditary.list.mpr reversed)
  · exact gives_arity _ _ _

theorem reads_contains : Reads contains := by
  intro V _ h recv args hr ha
  unfold contains
  split
  · exact (gives_itemsOf hr).bind fun _ _ => .ok (Hereditary.bool _)
  · exact gives_arity _ _ _

theorem gives_addTo (v w : Value) : Gives V (addTo v w) := by
  unfold addTo
  split <;> first | exact .ok (Hereditary.bare rfl) | exact .error rfl

theorem gives_sumFrom : ∀ {total : Value} (items : List Value), V total →
    Gives V (sumFrom total items)
  | _, [], ht => .ok ht
  | total, v :: rest, _ => by
    have added := gives_addTo (V := V) total v
    rw [sumFrom]
    cases ha : addTo total v with
    | ok new => exact gives_sumFrom rest (added.result new ha)
    | error fault => exact .error (added.sound fault ha)

theorem reads_sum : Reads sum := by
  intro V _ h recv args hr ha
  unfold sum
  split
  · exact (gives_itemsOf hr).bind fun items _ => gives_sumFrom items (Hereditary.int 0)
  · exact gives_arity _ _ _

theorem edits_append : EditsSoundly append := by
  intro V _ h args ha v hv
  unfold append
  split
  · refine ⟨Hereditary.unit, .of_kind (Hereditary.list.mpr fun w hw => ?_) rfl nofun⟩
    exact (List.mem_append.mp hw).elim (Hereditary.list.mp hv w) (ha w)
  · exact ⟨rfl, .refl hv⟩

theorem edits_pop : EditsSoundly pop := by
  intro V _ h args ha
  unfold pop
  split
  · refine (Edit.Sound.replace fun v hv => ?_).bind fun _ _ => .pure Hereditary.unit
    unfold popAt
    split
    · refine (plain_intArg _ _).bind fun n _ => (Value.plain_checkIndex _ _).bind fun i _ => .ok ?_
      refine .of_kind (Hereditary.list.mpr fun w hw => ?_) rfl nofun
      exact Hereditary.list.mp hv w (List.mem_of_mem_eraseIdx hw)
    · exact .error rfl
  · exact .fail rfl

end Items

namespace Chars

theorem plain_textOf (h : Handles) (v : Value) : Plain (textOf h v) := by
  cases v <;> first | exact .ok trivial | exact .error rfl

theorem plain_charsOf (h : Handles) (v : Value) : Plain (charsOf h v) :=
  (plain_textOf h v).bind fun _ _ => .ok trivial

theorem plain_delimiter (v : Value) : Plain (delimiter v) := by
  unfold delimiter
  split
  · exact .ok trivial
  · split
    · exact .ok trivial
    · exact .error rfl
  · exact .error rfl

theorem reads_len : Reads len := by
  intro V _ h recv args hr ha
  unfold len
  split
  · exact (plain_charsOf _ _).bind fun _ _ => .ok (Hereditary.ofLength _)
  · exact gives_arity _ _ _

theorem reads_nth : Reads nth := by
  intro V _ h recv args hr ha
  unfold nth
  split
  · refine (plain_charsOf _ _).bind fun cs _ => (plain_intArg _ _).bind fun n _ => ?_
    exact (Value.plain_checkIndex _ _).bind fun i _ => .ok (Hereditary.char _)
  · exact gives_arity _ _ _

theorem reads_split : Reads split := by
  intro V _ h recv args hr ha
  unfold split
  split
  · refine (plain_charsOf _ _).bind fun cs _ => (plain_delimiter _).bind fun d _ => .ok ?_
    refine Hereditary.list.mpr fun v hv => ?_
    obtain ⟨piece, -, rfl⟩ := List.mem_map.mp hv
    exact Hereditary.ofChars piece
  · exact gives_arity _ _ _

theorem reads_substr : Reads substr := by
  intro V _ h recv args hr ha
  unfold substr
  split
  · refine (plain_charsOf _ _).bind fun cs _ => (plain_intArg _ _).bind fun start _ => ?_
    refine (plain_intArg _ _).bind fun count _ => ?_
    split
    · exact .error rfl
    · exact .error rfl
    · exact .ok (Hereditary.ofChars _)
  · exact gives_arity _ _ _

theorem reads_back : Reads back := by
  intro V _ h recv args hr ha
  unfold back
  split
  · refine (plain_charsOf _ _).bind fun cs _ => .ok ?_
    split
    · exact Hereditary.char _
    · exact (Hereditary.bare rfl)
  · exact gives_arity _ _ _

theorem reads_rev : Reads rev := by
  intro V _ h recv args hr ha
  unfold rev
  split
  · exact (plain_charsOf _ _).bind fun cs _ => .ok (Hereditary.ofChars _)
  · exact gives_arity _ _ _

theorem reads_contains : Reads contains := by
  intro V _ h recv args hr ha
  unfold contains
  split
  · refine (plain_charsOf _ _).bind fun cs _ => ?_
    split
    · exact .ok (Hereditary.bool _)
    · exact .ok (Hereditary.bool _)
    · exact .error rfl
  · exact gives_arity _ _ _

theorem reads_trim : Reads trim := by
  intro V _ h recv args hr ha
  unfold trim
  split
  · exact (plain_charsOf _ _).bind fun cs _ => .ok (Hereditary.ofChars _)
  · exact gives_arity _ _ _

theorem reads_ascii : Reads ascii := by
  intro V _ h recv args hr ha
  unfold ascii
  split
  · split
    · exact .ok (Hereditary.int _)
    · exact .error rfl
  · exact gives_arity _ _ _

theorem edits_pop : EditsSoundly pop := by
  intro V _ h args ha
  unfold pop
  split
  · refine (Edit.Sound.replace fun v hv => ?_).bind fun _ _ => .pure Hereditary.unit
    unfold popAt
    cases v with
    | str s =>
      refine (plain_textOf _ _).bind fun s _ => (plain_intArg _ _).bind fun n _ => ?_
      exact (Value.plain_checkIndex _ _).bind fun i _ => .ok (.of_kind (Hereditary.str _) rfl nofun)
    | _ => exact .error rfl
  · exact .fail rfl

/-- What follows an edit of a text that leaves a text. -/
theorem outcome_of_text {q : Value → Prop} {s t : String} {r : EStateM.Result Fault Value Value}
    (hr : Edit.Outcome h V q (.str t) r) : Edit.Outcome h V q (.str s) r := by
  have joined : Replaces h V (.str s) (.str t) := .of_kind (Hereditary.str t) rfl nofun
  cases r with
  | ok a new => exact ⟨hr.1, joined.trans hr.2⟩
  | error fault new => exact ⟨hr.1, joined.trans hr.2⟩

theorem sound_appendEach (h : Handles) (args : List Value) :
    Edit.Sound h V V (appendEach h args) := by
  induction args with
  | nil => exact .pure Hereditary.unit
  | cons first rest more =>
    cases first with
    | str tail =>
      intro v hv
      cases v with
      | str s => exact outcome_of_text (more (.str (s ++ tail)) (Hereditary.str _))
      | _ => exact ⟨rfl, .refl hv⟩
    | char c =>
      intro v hv
      cases v with
      | str s => exact outcome_of_text (more (.str (s.push c)) (Hereditary.str _))
      | _ => exact ⟨rfl, .refl hv⟩
    | _ => exact .fail rfl

theorem edits_append : EditsSoundly append := by
  intro V _ h args ha
  unfold append
  exact (Edit.Sound.check (plain_charsOf h)).bind fun _ _ => sound_appendEach h args

end Chars

namespace Entries

theorem gives_dictOf (hr : V recv) :
    Gives (fun d => ∀ e ∈ d.entries, V e.2) (dictOf h recv) := by
  cases recv with
  | dict d => exact .ok (Hereditary.entries hr)
  | _ => exact .error rfl

theorem reads_len : Reads len := by
  intro V _ h recv args hr ha
  unfold len
  split
  · exact (gives_dictOf hr).bind fun _ _ => .ok (Hereditary.ofLength _)
  · exact gives_arity _ _ _

theorem reads_hasKey : Reads hasKey := by
  intro V _ h recv args hr ha
  unfold hasKey
  split
  · refine (gives_dictOf hr).bind fun d _ => ?_
    exact (Value.plain_keyOf _ _).bind fun k _ => .ok (Hereditary.bool _)
  · exact gives_arity _ _ _

theorem reads_get : Reads get := by
  intro V _ h recv args hr ha
  unfold get
  split
  · refine (gives_dictOf hr).bind fun d hd => (Value.plain_keyOf _ _).bind fun k _ => .ok ?_
    exact Hereditary.ofOption fun v hv => Dict.forall_of_get? (p := V) hd hv
  · exact gives_arity _ _ _

theorem reads_keys : Reads keys := by
  intro V _ h recv args hr ha
  unfold keys
  split
  · refine (gives_dictOf hr).bind fun d _ => .ok (Hereditary.list.mpr fun v hv => ?_)
    obtain ⟨k, -, rfl⟩ := List.mem_map.mp hv
    exact Hereditary.ofKey k
  · exact gives_arity _ _ _

theorem reads_values : Reads values := by
  intro V _ h recv args hr ha
  unfold values
  split
  · refine (gives_dictOf hr).bind fun d hd => .ok (Hereditary.list.mpr fun v hv => ?_)
    obtain ⟨e, he, rfl⟩ := List.mem_map.mp hv
    exact hd e he
  · exact gives_arity _ _ _

theorem gives_optionOf (hr : V recv) :
    Gives (fun o => ∀ v ∈ o, V v) (optionOf h recv) := by
  cases recv with
  | some v =>
    refine .ok ?_
    rintro w ⟨⟩
    exact Hereditary.some.mp hr
  | none => exact .ok nofun
  | _ => exact .error rfl

theorem reads_isSome : Reads isSome := by
  intro V _ h recv args hr ha
  unfold isSome
  split
  · exact (gives_optionOf hr).bind fun _ _ => .ok (Hereditary.bool _)
  · exact gives_arity _ _ _

theorem reads_isNone : Reads isNone := by
  intro V _ h recv args hr ha
  unfold isNone
  split
  · exact (gives_optionOf hr).bind fun _ _ => .ok (Hereditary.bool _)
  · exact gives_arity _ _ _

theorem reads_unwrap : Reads unwrap := by
  intro V _ h recv args hr ha
  unfold unwrap
  split
  · refine (gives_optionOf hr).bind fun o ho => ?_
    split
    · exact .ok (ho _ rfl)
    · exact .error rfl
  · exact gives_arity _ _ _

theorem reads_unwrapOr : Reads unwrapOr := by
  intro V _ h recv args hr ha
  unfold unwrapOr
  split
  · refine (gives_optionOf hr).bind fun o ho => .ok ?_
    cases o with
    | some v => exact ho v rfl
    | none => exact (List.forall_mem_cons.mp ha).1
  · exact gives_arity _ _ _

theorem edits_insert : EditsSoundly insert := by
  intro V _ h args ha
  unfold insert
  split
  · rename_i key new
    have hn : V new := (List.forall_mem_cons.mp (List.forall_mem_cons.mp ha).2).1
    refine (Edit.Sound.replace fun v hv => ?_).bind fun _ _ => .pure Hereditary.unit
    unfold insertAt
    cases v with
    | dict d =>
      refine Gives.bind (P := fun e => e = d) (.ok rfl) fun e he => ?_
      subst he
      exact (Value.gives_keyOf e key).bind fun k takes =>
        .ok (.of_kind (Hereditary.insert takes hv hn) rfl nofun)
    | _ => exact .error rfl
  · exact .fail rfl

theorem edits_remove : EditsSoundly remove := by
  intro V _ h args ha
  unfold remove
  split
  · refine (Edit.Sound.replace fun v hv => ?_).bind fun _ _ => .pure Hereditary.unit
    unfold removeAt
    cases v with
    | dict d =>
      refine Gives.bind (P := fun e => e = d) (.ok rfl) fun e he => (Value.plain_keyOf _ _).bind fun k _ => ?_
      subst he
      split
      · exact .ok (.of_kind (Hereditary.erase k hv) rfl nofun)
      · exact .error rfl
    | _ => exact .error rfl
  · exact .fail rfl

end Entries

/-- A member of a built-in value names nothing new: where it reads, in what it reads, and where it
edits, in what it puts there. What a member does that is a run is said in `Proofs.Run.Builtin`. -/
def NamesNothingNew : Member → Prop
  | .read f => Reads f
  | .edit f => EditsSoundly f
  | .apply _ | .file _ => True

namespace OpenFile

open Files (Disk)

theorem plain_read (d : Disk) (f : FileId) : Plain (d.read f).1 := by
  unfold Disk.read
  split
  · exact .error rfl
  · split
    · exact .error rfl
    · split
      · exact .error rfl
      · dsimp only
        split
        · split
          · exact .ok trivial
          · exact .error rfl
        · exact .error rfl

theorem plain_write (d : Disk) (f : FileId) (text : String) : Plain (d.write f text) := by
  unfold Disk.write
  split
  · exact .error rfl
  · split
    · exact .error rfl
    · split
      · exact .error rfl
      · split
        · dsimp only
          split <;> exact .ok trivial
        · exact .error rfl

theorem plain_fileOf (v : Value) : Plain (fileOf v) := by
  cases v <;> first | exact .ok trivial | exact .error rfl

end OpenFile

theorem namesNothingNew {kind : Kind} {name : String} {m : Member}
    (hm : find? kind name = some m) : m.NamesNothingNew := by
  have shared : ∀ entry ∈ Items.shared, NamesNothingNew entry.2 := by
    simp only [Items.shared, List.forall_mem_cons, List.not_mem_nil, false_implies, implies_true,
      and_true]
    exact ⟨Items.reads_len, Items.reads_nth, Items.reads_back, Items.reads_rev⟩
  have all : ∀ entry ∈ table kind, NamesNothingNew entry.2 := by
    cases kind with
    | list =>
      simp only [table, Items.ofList, List.forall_mem_append, List.forall_mem_cons,
        List.not_mem_nil, false_implies, implies_true, and_true]
      exact ⟨shared, Items.edits_append, Items.edits_pop, Items.reads_contains, Items.reads_sum,
        trivial, trivial, trivial, trivial⟩
    | tuple => exact shared
    | str =>
      simp only [table, Chars.ofStr, List.forall_mem_cons, List.not_mem_nil, false_implies,
        implies_true, and_true]
      exact ⟨Chars.reads_len, Chars.reads_nth, Chars.reads_split, Chars.reads_substr,
        Chars.reads_back, Chars.reads_rev, Chars.reads_contains, Chars.reads_trim, Chars.edits_pop,
        Chars.edits_append, trivial, trivial⟩
    | char =>
      simp only [table, Chars.ofChar, List.forall_mem_cons, List.not_mem_nil, false_implies,
        implies_true, and_true]
      exact Chars.reads_ascii
    | dict =>
      simp only [table, Entries.ofDict, List.forall_mem_cons, List.not_mem_nil, false_implies,
        implies_true, and_true]
      exact ⟨Entries.reads_len, Entries.reads_hasKey, Entries.reads_get, Entries.reads_keys,
        Entries.reads_values, Entries.edits_insert, Entries.edits_remove⟩
    | option =>
      simp only [table, Entries.ofOption, List.forall_mem_cons, List.not_mem_nil, false_implies,
        implies_true, and_true]
      exact ⟨Entries.reads_isSome, Entries.reads_isNone, Entries.reads_unwrap,
        Entries.reads_unwrapOr⟩
    | file =>
      simp only [table, OpenFile.ofFile, List.forall_mem_cons, List.not_mem_nil, false_implies,
        implies_true, and_true]
      exact ⟨trivial, trivial, trivial, trivial, trivial⟩
    | _ => simp [table]
  obtain ⟨before, after, heq, -⟩ := List.lookup_eq_some_iff.mp hm
  exact all (name, m) (by simp [heq])

end Member

namespace Intrinsic

/-- The function gives values that name nothing new. -/
def NamesNothingNew (f : Handles → List Value → Except Fault Value) : Prop :=
  ∀ (V : Value → Prop) [Hereditary V] h args, (∀ v ∈ args, V v) → Gives V (f h args)

theorem names_assert : NamesNothingNew assert := by
  intro V _ h args ha
  unfold assert
  split <;> first | exact .ok Hereditary.unit | exact .error rfl

theorem names_len : NamesNothingNew len := by
  intro V _ h args ha
  unfold len
  split <;> first | exact .ok (Hereditary.ofLength _) | exact .error rfl

theorem names_toInt : NamesNothingNew toInt := by
  intro V _ h args ha
  unfold toInt
  split <;> (try split) <;> first | exact .ok (Hereditary.int _) | exact .error rfl

theorem names_toFloat : NamesNothingNew toFloat := by
  intro V _ h args ha
  unfold toFloat
  split <;> (try split) <;> first | exact .ok (Hereditary.float _) | exact .error rfl

theorem names_toStr : NamesNothingNew toStr := by
  intro V _ h args ha
  unfold toStr
  split
  · exact .ok (Hereditary.str _)
  · exact gives_arity _ _ _

theorem names_toBool : NamesNothingNew toBool := by
  intro V _ h args ha
  unfold toBool
  split
  · exact .ok (Hereditary.bool _)
  · exact gives_arity _ _ _

theorem names_toChar : NamesNothingNew toChar := by
  intro V _ h args ha
  unfold toChar
  split <;> (try split) <;> first | exact .ok (Hereditary.char _) | exact .error rfl

theorem names_wrap : NamesNothingNew wrap := by
  intro V _ h args ha
  unfold wrap
  split
  · exact .ok (Hereditary.some.mpr (List.forall_mem_cons.mp ha).1)
  · exact gives_arity _ _ _

theorem names_typeOf : NamesNothingNew typeOf := by
  intro V _ h args ha
  unfold typeOf
  split
  · exact .ok (Hereditary.str _)
  · exact gives_arity _ _ _

theorem names_exit : NamesNothingNew exit := by
  intro V _ h args ha
  unfold exit
  split
  · refine (Member.plain_intArg _ _).bind fun code _ => ?_
    split <;> exact .error rfl
  · exact gives_arity _ _ _

theorem names_unimplemented : NamesNothingNew unimplemented := by
  intro V _ h args ha
  exact .error rfl

end Intrinsic

namespace Files.Disk

theorem plain_openFile (d : Disk) (path mode : String) : Plain (d.openFile path mode) := by
  unfold openFile
  split
  · exact .error rfl
  · split
    · exact .error rfl
    · exact .ok trivial

theorem plain_list (d : Disk) (path : String) : Plain (d.list path) := by
  unfold list
  split
  · exact .error rfl
  · exact .ok trivial

theorem plain_makeDirectory (d : Disk) (path : String) : Plain (d.makeDirectory path) := by
  unfold makeDirectory
  split
  · exact .error rfl
  · exact .ok trivial

theorem plain_move (d : Disk) (source target : String) : Plain (d.move source target) := by
  unfold move
  split
  · exact .error rfl
  · exact .ok trivial

end Files.Disk

end TreeScript
