import TreeScript.Proofs.Termination.Settling

/-!
# Built-in functions settle

Intrinsics need no fuel, but for `copy`, which gives up on an instance that holds itself. A member
that calls back goes through a snapshot of its receiver, so it settles if the callbacks do. A member
of a file settles, but not always with a result or a failure.
-/
namespace TreeScript

open Value (Hereditary)

variable {r : Standing}

/-- All of the values are such that code of the part may have them. -/
abbrev Part.Vals (p : Part) (vs : List Value) : Prop := ∀ v ∈ vs, p.Val v

namespace Run.Settles

/-- An intrinsic settles wherever it is called. -/
def OfIntrinsic (i : Intrinsic) : Prop :=
  ∀ r config args, r.part.Vals args → Settles r r.part.Val fun _ => i config args

/-- Work on files gives no code. -/
theorem onFiles {f : Files.Disk → Except Fault Value × Files.Disk}
    (hf : ∀ d, Gives Value.LeadsNowhere (f d).1) :
    Settles r r.part.Val fun _ => Run.onDisk f :=
  onDisk fun d => (hf d).mono fun _ nowhere => nowhere _

theorem changeDisk {f : Files.Disk → Except Fault Files.Disk} (hf : ∀ d, Plain (f d)) :
    Done r fun _ => Run.changeDisk f := by
  refine onDisk fun d => ?_
  cases e : f d with
  | ok d => exact .ok trivial
  | error fault => exact .error ((hf d).sound fault e)

theorem ofPure {g : Handles → List Value → Except Fault Value}
    (hg : Intrinsic.NamesNothingNew g) : OfIntrinsic (Intrinsic.pureOf g) :=
  fun _ _ args ha => handles fun h => ofExcept (hg _ h args ha)

theorem ofPrint : OfIntrinsic Intrinsic.print := fun _ _ _ _ =>
  handles fun _ => bind (modifyOutput _) fun _ _ => pure Hereditary.unit

theorem ofArgv : OfIntrinsic Intrinsic.argv := by
  intro r config args _
  unfold Intrinsic.argv
  split
  · refine pure (Hereditary.list.mpr fun v hv => ?_)
    obtain ⟨s, -, rfl⟩ := List.mem_map.mp hv
    exact Hereditary.str s
  · exact ofExcept (gives_arity _ _ _)

theorem ofInput : OfIntrinsic Intrinsic.input := by
  intro r _ args _
  have line : Settles r r.part.Val fun _ => do return Value.str ((← Run.nextLine).getD "") :=
    bind nextLine fun _ _ => pure (Hereditary.str _)
  cases args with
  | nil => exact line
  | cons v rest => exact handles fun _ => bind (modifyOutput _) fun _ _ => line

theorem ofOpen : OfIntrinsic Intrinsic.openFile := by
  intro r _ args _
  unfold Intrinsic.openFile
  split
  · refine given (Member.plain_strArg _ _) fun path _ => ?_
    refine given (Member.plain_strArg _ _) fun mode _ => onFiles fun d => ?_
    have opened := d.plain_openFile path mode
    cases e : d.openFile path mode with
    | ok r => exact .ok (Value.leadsNowhere_of_isBare rfl)
    | error fault => exact .error (opened.sound fault e)
  · exact ofExcept (gives_arity _ _ _)

theorem ofLs : OfIntrinsic Intrinsic.ls := by
  intro r _ args _
  unfold Intrinsic.ls
  split
  · refine given (Member.plain_strArg _ _) fun path _ => onDisk fun d => ?_
    refine (d.plain_list path).map fun paths _ => Hereditary.list.mpr fun v hv => ?_
    obtain ⟨s, -, rfl⟩ := List.mem_map.mp hv
    exact Hereditary.str s
  · exact ofExcept (gives_arity _ _ _)

theorem ofMkdir : OfIntrinsic Intrinsic.mkdir := by
  intro r _ args _
  unfold Intrinsic.mkdir
  split
  · refine given (Member.plain_strArg _ _) fun path _ => ?_
    exact bind (changeDisk fun d => d.plain_makeDirectory path) fun _ _ => pure Hereditary.unit
  · exact ofExcept (gives_arity _ _ _)

theorem ofMove : OfIntrinsic Intrinsic.move := by
  intro r _ args _
  unfold Intrinsic.move
  split
  · refine given (Member.plain_strArg _ _) fun source _ => ?_
    refine given (Member.plain_strArg _ _) fun target _ => ?_
    exact bind (changeDisk fun d => d.plain_move source target) fun _ _ => pure Hereditary.unit
  · exact ofExcept (gives_arity _ _ _)

theorem intrinsic {name : String} {i : Intrinsic} (h : Intrinsic.find? name = some i)
    (other : name ≠ "copy") : OfIntrinsic i := by
  have all : ∀ entry ∈ Intrinsic.table, entry.1 ≠ "copy" → OfIntrinsic entry.2 := by
    simp only [Intrinsic.table, List.forall_mem_cons, List.not_mem_nil, false_implies, implies_true,
      and_true, ne_eq, not_true_eq_false, true_and]
    exact ⟨fun _ => ofPrint, fun _ => ofPure Intrinsic.names_assert,
      fun _ => ofPure Intrinsic.names_len, fun _ => ofArgv, fun _ => ofPure Intrinsic.names_toInt,
      fun _ => ofPure Intrinsic.names_toFloat, fun _ => ofPure Intrinsic.names_toStr,
      fun _ => ofPure Intrinsic.names_toBool, fun _ => ofPure Intrinsic.names_toChar,
      fun _ => ofPure Intrinsic.names_wrap, fun _ => ofPure Intrinsic.names_typeOf,
      fun _ => ofPure Intrinsic.names_exit, fun _ => ofInput,
      fun _ => ofPure Intrinsic.names_unimplemented, fun _ => ofOpen, fun _ => ofLs,
      fun _ => ofMkdir, fun _ => ofMove⟩
  obtain ⟨before, after, heq, -⟩ := List.lookup_eq_some_iff.mp h
  exact all (name, i) (by simp [heq]) other

/-- Callbacks settle. -/
def OfCallback (r : Standing) (call : Nat → Callback) : Prop :=
  ∀ cl args, r.part.Val (.closure cl) → r.part.Vals args →
    Settles r r.part.Val fun n => call n cl args

section Items

variable {f : Nat → Value → Run Value} {g : Nat → Value → Value → Run Value}

theorem filterItems (h : ∀ v, r.part.Val v → Settles r r.part.Val fun n => f n v) : ∀ items,
    r.part.Vals items → Settles r r.part.Vals fun n => Member.Items.filterItems (f n) items
  | [], _ => pure nofun
  | v :: rest, hi => by
    obtain ⟨hv, hrest⟩ := List.forall_mem_cons.mp hi
    refine bind (h v hv) fun keep _ => handles fun _ => ?_
    refine bind (filterItems h rest hrest) fun kept hk => pure ?_
    split
    · exact List.forall_mem_cons.mpr ⟨hv, hk⟩
    · exact hk

theorem mapItems (h : ∀ v, r.part.Val v → Settles r r.part.Val fun n => f n v) : ∀ items,
    r.part.Vals items → Settles r r.part.Vals fun n => Member.Items.mapItems (f n) items
  | [], _ => pure nofun
  | v :: rest, hi => by
    obtain ⟨hv, hrest⟩ := List.forall_mem_cons.mp hi
    refine bind (h v hv) fun new hn => ?_
    exact bind ((mapItems h rest hrest).holding _) fun news hs =>
      pure (List.forall_mem_cons.mpr ⟨hn, hs⟩)

theorem forItems (h : ∀ v, r.part.Val v → Settles r r.part.Val fun n => f n v) : ∀ items,
    r.part.Vals items → Done r fun n => Member.Items.forItems (f n) items
  | [], _ => pure trivial
  | v :: rest, hi => by
    obtain ⟨hv, hrest⟩ := List.forall_mem_cons.mp hi
    exact bind (h v hv) fun _ _ => forItems h rest hrest

theorem foldItems (h : ∀ v w, r.part.Val v → r.part.Val w → Settles r r.part.Val fun n => g n v w) :
    ∀ acc items, r.part.Val acc → r.part.Vals items →
      Settles r r.part.Val fun n => Member.Items.foldItems (g n) acc items
  | acc, [], ha, _ => pure ha
  | acc, v :: rest, ha, hi => by
    obtain ⟨hv, hrest⟩ := List.forall_mem_cons.mp hi
    exact bind (h acc v ha hv) fun new hn => foldItems h new rest hn hrest

theorem filterChars (h : ∀ v, r.part.Val v → Settles r r.part.Val fun n => f n v) : ∀ cs,
    Settles r (fun _ => True) fun n => Member.Chars.filterChars (f n) cs
  | [] => pure trivial
  | c :: rest => bind (h _ (Hereditary.char c)) fun _ _ => handles fun _ =>
      bind (filterChars h rest) fun _ _ => pure trivial

theorem forChars (h : ∀ v, r.part.Val v → Settles r r.part.Val fun n => f n v) : ∀ cs,
    Done r fun n => Member.Chars.forChars (f n) cs
  | [] => pure trivial
  | c :: rest => bind (h _ (Hereditary.char c)) fun _ _ => forChars h rest

end Items

/-- A member settles that is a run, if it calls back with callbacks that do. -/
def OfMember : Member → Prop
  | .apply f => ∀ r call recv args, OfCallback r call → r.part.Val recv → r.part.Vals args →
      Settles r r.part.Val fun n => f (call n) recv args
  | .file f => ∀ r recv args, Settles r r.part.Val fun _ => f recv args
  | _ => True

theorem gives_closure (name : String) {v : Value} (hv : r.part.Val v) :
    Gives (fun cl => r.part.Val (.closure cl)) (Member.closureArg name v) := by
  cases v with
  | closure cl => exact .ok hv
  | _ => exact .error rfl

variable {call : Nat → Callback} {cl : Closure} {f recv : Value}

/-- Callbacks for one item. -/
theorem OfCallback.one (h : OfCallback r call) (hc : r.part.Val (.closure cl)) (v : Value)
    (hv : r.part.Val v) : Settles r r.part.Val fun n => call n cl [v] :=
  h cl [v] hc (List.forall_mem_singleton.mpr hv)

/-- What members have in common that call a closure for items. -/
theorem overItems {name : String} {k : Nat → Closure → List Value → Run Value} (hf : r.part.Val f)
    (hr : r.part.Val recv) (hk : ∀ cl items, r.part.Val (.closure cl) → r.part.Vals items →
      Settles r r.part.Val fun n => k n cl items) :
    Settles r r.part.Val fun n => (do
      let cl ← Run.ofExcept (Member.closureArg name f)
      let items ← Run.ofExcept (Member.Items.itemsOf (← Run.handles) recv)
      k n cl items) :=
  given (gives_closure _ hf) fun cl hc => handles fun _ =>
    given (Member.Items.gives_itemsOf hr) fun items hi => hk cl items hc hi

/-- What members have in common that call a closure for the characters of a text. -/
theorem overChars {name : String} {k : Nat → Closure → List Char → Run Value} (hf : r.part.Val f)
    (hk : ∀ cl cs, r.part.Val (.closure cl) → Settles r r.part.Val fun n => k n cl cs) :
    Settles r r.part.Val fun n => (do
      let cl ← Run.ofExcept (Member.closureArg name f)
      let cs ← Run.ofExcept (Member.Chars.charsOf (← Run.handles) recv)
      k n cl cs) :=
  given (gives_closure _ hf) fun cl hc => handles fun hs =>
    given (Member.Chars.plain_charsOf hs recv) fun cs _ => hk cl cs hc

theorem ofFilter : OfMember (.apply Member.Items.filter) := by
  intro r call recv args h hr ha
  unfold Member.Items.filter
  split
  · refine overItems (List.forall_mem_cons.mp ha).1 hr fun cl items hc hi => ?_
    exact bind (filterItems (h.one hc) items hi) fun _ hk => pure (Hereditary.list.mpr hk)
  · exact ofExcept (gives_arity _ _ _)

theorem ofMap : OfMember (.apply Member.Items.map) := by
  intro r call recv args h hr ha
  unfold Member.Items.map
  split
  · refine overItems (List.forall_mem_cons.mp ha).1 hr fun cl items hc hi => ?_
    exact bind (mapItems (h.one hc) items hi) fun _ hn => pure (Hereditary.list.mpr hn)
  · exact ofExcept (gives_arity _ _ _)

theorem ofForeach : OfMember (.apply Member.Items.foreach) := by
  intro r call recv args h hr ha
  unfold Member.Items.foreach
  split
  · refine overItems (List.forall_mem_cons.mp ha).1 hr fun cl items hc hi => ?_
    exact bind (forItems (h.one hc) items hi) fun _ _ => pure Hereditary.unit
  · exact ofExcept (gives_arity _ _ _)

theorem ofFold : OfMember (.apply Member.Items.fold) := by
  intro r call recv args h hr ha
  unfold Member.Items.fold
  split
  · obtain ⟨hf, ha⟩ := List.forall_mem_cons.mp ha
    refine overItems hf hr fun cl items hc hi => ?_
    refine foldItems (fun acc v hacc hv => h cl _ hc ?_) _ items (List.forall_mem_cons.mp ha).1 hi
    exact List.forall_mem_cons.mpr ⟨hacc, List.forall_mem_singleton.mpr hv⟩
  · exact ofExcept (gives_arity _ _ _)

theorem ofFilterChars : OfMember (.apply Member.Chars.filter) := by
  intro r call recv args h hr ha
  unfold Member.Chars.filter
  split
  · refine overChars (List.forall_mem_cons.mp ha).1 fun cl cs hc => ?_
    exact bind (filterChars (h.one hc) cs) fun _ _ => pure (Hereditary.ofChars _)
  · exact ofExcept (gives_arity _ _ _)

theorem ofForeachChar : OfMember (.apply Member.Chars.foreach) := by
  intro r call recv args h hr ha
  unfold Member.Chars.foreach
  split
  · refine overChars (List.forall_mem_cons.mp ha).1 fun cl cs hc => ?_
    exact bind (forChars (h.one hc) cs) fun _ _ => pure Hereditary.unit
  · exact ofExcept (gives_arity _ _ _)

theorem ofReadFile : OfMember (.file Member.OpenFile.read) := by
  intro r recv args
  unfold Member.OpenFile.read
  split
  · refine given (Member.OpenFile.plain_fileOf recv) fun f _ => ?_
    exact bind (onDisk fun d => Member.OpenFile.plain_read d f) fun text _ =>
      pure (Hereditary.str text)
  · exact ofExcept (gives_arity _ _ _)

/-- A value is written to a file, unless its text names the file. -/
theorem put (f : FileId) (v : Value) : Done r fun _ => Member.OpenFile.put f v := by
  unfold Member.OpenFile.put
  split
  · rename_i shows
    exact of_run fun _ hm => ⟨shows, hm⟩
  · exact handles fun h => changeDisk fun d => Member.OpenFile.plain_write d f _

theorem putLines (f : FileId) (lines : List Value) :
    Done r fun _ => Member.OpenFile.putLines f lines := by
  induction lines generalizing r with
  | nil => exact pure trivial
  | cons line rest ih =>
    exact bind (put f line) fun _ _ =>
      bind (changeDisk fun d => Member.OpenFile.plain_write d f _) fun _ _ => ih

theorem ofWriteFile : OfMember (.file Member.OpenFile.write) := by
  intro r recv args
  unfold Member.OpenFile.write
  split
  · exact given (Member.OpenFile.plain_fileOf recv) fun f _ =>
      bind (put f _) fun _ _ => pure Hereditary.unit
  · exact ofExcept (gives_arity _ _ _)

theorem ofWriteLines : OfMember (.file Member.OpenFile.writeLines) := by
  intro r recv args
  unfold Member.OpenFile.writeLines
  split
  · exact given (Member.OpenFile.plain_fileOf recv) fun f _ =>
      bind (putLines f _) fun _ _ => pure Hereditary.unit
  · exact ofExcept (.error rfl)
  · exact ofExcept (gives_arity _ _ _)

theorem ofCloseFile : OfMember (.file Member.OpenFile.close) := by
  intro r recv args
  unfold Member.OpenFile.close
  split
  · exact given (Member.OpenFile.plain_fileOf recv) fun f _ =>
      onFiles fun d => .ok (Value.leadsNowhere_of_isBare rfl)
  · exact ofExcept (gives_arity _ _ _)

theorem ofIsOpen : OfMember (.file Member.OpenFile.isOpen) := by
  intro r recv args
  unfold Member.OpenFile.isOpen
  split
  · exact given (Member.OpenFile.plain_fileOf recv) fun f _ =>
      handles fun h => pure (Hereditary.bool _)
  · exact ofExcept (gives_arity _ _ _)

theorem member {kind : Kind} {name : String} {m : Member} (h : Member.find? kind name = some m) :
    OfMember m := by
  have all : ∀ entry ∈ Member.table kind, OfMember entry.2 := by
    cases kind <;>
      simp [Member.table, Member.Items.ofList, Member.Items.shared, Member.Chars.ofStr,
        Member.Chars.ofChar, Member.Entries.ofDict, Member.Entries.ofOption,
        Member.OpenFile.ofFile, ofFilter, ofMap, ofForeach, ofFold, ofFilterChars, ofForeachChar,
        ofReadFile, ofWriteFile, ofWriteLines, ofCloseFile, ofIsOpen] <;>
      simp [OfMember]
  obtain ⟨before, after, heq, -⟩ := List.lookup_eq_some_iff.mp h
  exact all (name, m) (by simp [heq])

end Run.Settles

end TreeScript
