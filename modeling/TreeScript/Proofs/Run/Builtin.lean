import TreeScript.Proofs.Run.Tracking

/-!
# Built-in functions and what runs get hold of

Intrinsics and members of built-in values respect every tracking: with arguments that are in hand
they give results that are. A member that calls back runs the same closures with the same arguments,
so it relates runs when the callbacks are related; its receiver and its arguments are held meanwhile.
What the members of files give leads nowhere.
-/
namespace TreeScript.Run.Tracking

open Value (Hereditary)

variable {T : Tracking} {w w' : T.World}

theorem gives_names {r : Except Fault Value} (h : Gives (T.Val w) r) :
    Gives (fun v => T.Fits w v.names) r := h.mono fun _ => fit_value.mpr

theorem onFiles {g : Files.Disk → Except Fault Value × Files.Disk}
    (h : ∀ d, Gives Value.LeadsNowhere (g d).1) :
    T.Keeps w .clean Value.names (Run.onDisk g) :=
  T.onDisk (κ := fun v => [v]) g fun d =>
    (h d).mono fun _ hv _ hu => List.mem_singleton.mp hu ▸ hv

theorem changeDisk {g : Files.Disk → Except Fault Files.Disk} (hg : ∀ d, Plain (g d)) :
    T.Keeps w .clean (fun _ => .none) (Run.changeDisk g) := by
  refine T.onDisk (κ := fun _ => []) _ fun d => ?_
  cases e : g d with
  | ok d => exact .ok nofun
  | error fault => exact .error ((hg d).sound fault e)

/-- An intrinsic respects the tracking. -/
def OfIntrinsic (T : Tracking) (i : Intrinsic) : Prop :=
  ∀ w config args, (∀ v ∈ args, T.Val w v) → T.Keeps w .clean Value.names (i config args)

theorem pureOf {g : Handles → List Value → Except Fault Value}
    (hg : Intrinsic.NamesNothingNew g) : T.OfIntrinsic (Intrinsic.pureOf g) :=
  fun _ _ args ha => ofHandles fun h => gives_names (hg _ h args ha)

theorem ofPrint : T.OfIntrinsic Intrinsic.print := by
  intro w _ args _
  refine handles fun h => ?_
  exact andThen (T.modifyOutput _) fun _ _ _ => ret (fit_value.mpr Hereditary.unit)

theorem ofArgv : T.OfIntrinsic Intrinsic.argv := by
  intro w config args _
  unfold Intrinsic.argv
  split
  · refine ret (fit_value.mpr (Hereditary.list.mpr fun v hv => ?_))
    obtain ⟨s, -, rfl⟩ := List.mem_map.mp hv
    exact Hereditary.str s
  · exact ofExcept (gives_arity _ _ _)

theorem ofCopy : T.OfIntrinsic Intrinsic.copy := by
  intro w _ args ha
  unfold Intrinsic.copy
  split
  · exact T.copy (List.forall_mem_cons.mp ha).1
  · exact ofExcept (gives_arity _ _ _)

theorem ofInput : T.OfIntrinsic Intrinsic.input := by
  intro w _ args _
  have line (w : T.World) :
      T.Keeps w .clean Value.names (do return Value.str ((← Run.nextLine).getD "")) :=
    andThen T.nextLine fun _ _ _ => ret (fit_value.mpr (Hereditary.str _))
  have prompt (h : Handles) : T.Keeps w .clean Value.names (do
      Run.print (Value.textAll h args)
      return Value.str ((← Run.nextLine).getD "")) :=
    andThen (T.modifyOutput _) fun _ w' _ => line w'
  cases args with
  | nil => exact line w
  | cons v rest => exact handles prompt

theorem ofOpen : T.OfIntrinsic Intrinsic.openFile := by
  intro w _ args _
  unfold Intrinsic.openFile
  split
  · rename_i path mode
    refine given (Member.plain_strArg _ _) fun path _ => ?_
    refine given (Member.plain_strArg _ _) fun mode _ => onFiles fun d => ?_
    have opened := Files.Disk.plain_openFile d path mode
    cases e : d.openFile path mode with
    | ok r => exact .ok (Value.leadsNowhere_of_isBare rfl)
    | error fault => exact .error (opened.sound fault e)
  · exact ofExcept (gives_arity _ _ _)

theorem ofLs : T.OfIntrinsic Intrinsic.ls := by
  intro w _ args _
  unfold Intrinsic.ls
  split
  · refine given (Member.plain_strArg _ _) fun path _ => onFiles fun d => ?_
    refine (d.plain_list path).map fun paths _ V _ => Hereditary.list.mpr fun v hv => ?_
    obtain ⟨s, -, rfl⟩ := List.mem_map.mp hv
    exact Hereditary.str s
  · exact ofExcept (gives_arity _ _ _)

theorem ofMkdir : T.OfIntrinsic Intrinsic.mkdir := by
  intro w _ args _
  unfold Intrinsic.mkdir
  split
  · refine given (Member.plain_strArg _ _) fun path _ => ?_
    exact andThen (changeDisk fun d => d.plain_makeDirectory path) fun _ _ _ =>
      ret (fit_value.mpr Hereditary.unit)
  · exact ofExcept (gives_arity _ _ _)

theorem ofMove : T.OfIntrinsic Intrinsic.move := by
  intro w _ args _
  unfold Intrinsic.move
  split
  · refine given (Member.plain_strArg _ _) fun source _ => ?_
    refine given (Member.plain_strArg _ _) fun target _ => ?_
    exact andThen (changeDisk fun d => d.plain_move source target) fun _ _ _ =>
      ret (fit_value.mpr Hereditary.unit)
  · exact ofExcept (gives_arity _ _ _)

theorem intrinsic {name : String} {i : Intrinsic} (h : Intrinsic.find? name = some i) :
    T.OfIntrinsic i := by
  have all : ∀ entry ∈ Intrinsic.table, T.OfIntrinsic entry.2 := by
    simp only [Intrinsic.table, List.forall_mem_cons, List.not_mem_nil, false_implies, implies_true,
      and_true]
    exact ⟨ofPrint, pureOf Intrinsic.names_assert, pureOf Intrinsic.names_len, ofArgv,
      pureOf Intrinsic.names_toInt, pureOf Intrinsic.names_toFloat, pureOf Intrinsic.names_toStr,
      pureOf Intrinsic.names_toBool, pureOf Intrinsic.names_toChar, pureOf Intrinsic.names_wrap,
      pureOf Intrinsic.names_typeOf, ofCopy, pureOf Intrinsic.names_exit, ofInput,
      pureOf Intrinsic.names_unimplemented, ofOpen, ofLs, ofMkdir, ofMove⟩
  obtain ⟨before, after, heq, -⟩ := List.lookup_eq_some_iff.mp h
  exact all (name, i) (by simp [heq])

/-- The tracking relates two callbacks. -/
def OfCallback (T : Tracking) (call₁ call₂ : Callback) : Prop :=
  ∀ w closure args, T.Val w (.closure closure) → (∀ v ∈ args, T.Val w v) →
    T.Rel w .clean Value.names (call₁ closure args) (call₂ closure args)

variable {call₁ call₂ : Callback} {cl : Closure}

theorem filterItems (h : T.OfCallback call₁ call₂) : ∀ {w : T.World} items,
    T.Held w (.closure cl) → (∀ v ∈ items, T.Held w v) →
      T.Rel w .clean Names.ofValues (Member.Items.filterItems (fun v => call₁ cl [v]) items)
        (Member.Items.filterItems (fun v => call₂ cl [v]) items)
  | w, [], _, _ => ret (Names.fit_ofValues.mpr nofun)
  | w, v :: rest, hc, hi => by
    obtain ⟨hv, hrest⟩ := List.forall_mem_cons.mp hi
    have called := h w cl [v] (val_of_held hc) (List.forall_mem_singleton.mpr (val_of_held hv))
    refine andThen called fun keep w₁ next₁ => handles fun _ => ?_
    have more := filterItems h rest ((T.lasts next₁).held hc)
      fun v hv => (T.lasts next₁).held (hrest v hv)
    refine T.bind more fun kept w₂ next₂ hk => ret (Names.fit_ofValues.mpr ?_)
    have hk := Names.fit_ofValues.mp hk
    have hv := val_of_held ((T.lasts next₂).held ((T.lasts next₁).held hv))
    split
    · exact List.forall_mem_cons.mpr ⟨hv, hk⟩
    · exact hk

theorem mapItems (h : T.OfCallback call₁ call₂) : ∀ {w : T.World} items,
    T.Held w (.closure cl) → (∀ v ∈ items, T.Held w v) →
      T.Rel w .clean Names.ofValues (Member.Items.mapItems (fun v => call₁ cl [v]) items)
        (Member.Items.mapItems (fun v => call₂ cl [v]) items)
  | w, [], _, _ => ret (Names.fit_ofValues.mpr nofun)
  | w, v :: rest, hc, hi => by
    obtain ⟨hv, hrest⟩ := List.forall_mem_cons.mp hi
    have called := h w cl [v] (val_of_held hc) (List.forall_mem_singleton.mpr (val_of_held hv))
    refine T.bind called fun new w₁ next₁ hn => ?_
    have held {u : Value} (hu : T.Held w u) : T.Held (T.enter [.value new] w₁) u :=
      (T.enters _ w₁).held ((T.lasts next₁).held hu)
    have more := mapItems h rest (held hc) fun u hu => held (hrest u hu)
    refine T.bind (holdingValue (fit_value.mp hn) more) fun news w₂ _ hs => ?_
    obtain ⟨hs, hn⟩ := Names.fit_append.mp hs
    refine ret (Names.fit_ofValues.mpr ?_)
    exact List.forall_mem_cons.mpr ⟨fit_value.mp hn, Names.fit_ofValues.mp hs⟩

theorem forItems (h : T.OfCallback call₁ call₂) : ∀ {w : T.World} items,
    T.Held w (.closure cl) → (∀ v ∈ items, T.Held w v) →
      T.Rel w .clean (fun _ => .none) (Member.Items.forItems (fun v => call₁ cl [v]) items)
        (Member.Items.forItems (fun v => call₂ cl [v]) items)
  | w, [], _, _ => ret fits_none
  | w, v :: rest, hc, hi => by
    obtain ⟨hv, hrest⟩ := List.forall_mem_cons.mp hi
    have called := h w cl [v] (val_of_held hc) (List.forall_mem_singleton.mpr (val_of_held hv))
    exact andThen called fun _ w₁ next₁ => forItems h rest ((T.lasts next₁).held hc)
      fun v hv => (T.lasts next₁).held (hrest v hv)

theorem foldItems (h : T.OfCallback call₁ call₂) : ∀ {w : T.World} acc items,
    T.Held w (.closure cl) → T.Val w acc → (∀ v ∈ items, T.Held w v) →
      T.Rel w .clean Value.names
        (Member.Items.foldItems (fun acc v => call₁ cl [acc, v]) acc items)
        (Member.Items.foldItems (fun acc v => call₂ cl [acc, v]) acc items)
  | w, acc, [], _, ha, _ => ret (fit_value.mpr ha)
  | w, acc, v :: rest, hc, ha, hi => by
    obtain ⟨hv, hrest⟩ := List.forall_mem_cons.mp hi
    have args : ∀ u ∈ [acc, v], T.Val w u :=
      List.forall_mem_cons.mpr ⟨ha, List.forall_mem_singleton.mpr (val_of_held hv)⟩
    refine T.bind (h w cl [acc, v] (val_of_held hc) args) fun new w₁ next₁ hn => ?_
    exact foldItems h new rest ((T.lasts next₁).held hc) (fit_value.mp hn)
      fun v hv => (T.lasts next₁).held (hrest v hv)

theorem filterChars (h : T.OfCallback call₁ call₂) : ∀ {w : T.World} cs,
    T.Held w (.closure cl) →
      T.Rel w .clean (fun _ => .none) (Member.Chars.filterChars (fun v => call₁ cl [v]) cs)
        (Member.Chars.filterChars (fun v => call₂ cl [v]) cs)
  | _, [], _ => ret fits_none
  | w, c :: rest, hc => by
    have called := h w cl [.char c] (val_of_held hc)
      (List.forall_mem_singleton.mpr (Hereditary.char c))
    refine andThen called fun keep w₁ next₁ => handles fun _ => ?_
    exact andThen (filterChars h rest ((T.lasts next₁).held hc)) fun kept _ _ => ret fits_none

theorem forChars (h : T.OfCallback call₁ call₂) : ∀ {w : T.World} cs,
    T.Held w (.closure cl) →
      T.Rel w .clean (fun _ => .none) (Member.Chars.forChars (fun v => call₁ cl [v]) cs)
        (Member.Chars.forChars (fun v => call₂ cl [v]) cs)
  | _, [], _ => ret fits_none
  | w, c :: rest, hc => by
    have called := h w cl [.char c] (val_of_held hc)
      (List.forall_mem_singleton.mpr (Hereditary.char c))
    exact andThen called fun _ w₁ next₁ => forChars h rest ((T.lasts next₁).held hc)

/-- A member that is a run respects the tracking. One that calls back relates the runs with related
callbacks. -/
def OfMember (T : Tracking) : Member → Prop
  | .apply g => ∀ w call₁ call₂ v args, T.OfCallback call₁ call₂ → T.Held w v →
      (∀ u ∈ args, T.Held w u) → T.Rel w .clean Value.names (g call₁ v args) (g call₂ v args)
  | .file g => ∀ w v args, T.Keeps w .clean Value.names (g v args)
  | _ => True

/-- The closure that a member calls back. -/
theorem gives_closureArg {name : String} {v : Value} (hv : T.Held w v) :
    Gives (fun cl => T.Held w (.closure cl)) (Member.closureArg name v) := by
  cases v with
  | closure cl => exact .ok hv
  | _ => exact .error rfl

/-- What members have in common that call a closure for items: it is their first argument, and the
items are those of the receiver. -/
theorem overItems {name : String} {f recv : Value}
    {k l : Closure → List Value → Run Value} (hf : T.Held w f) (hr : T.Held w recv)
    (h : ∀ cl items, T.Held w (.closure cl) → (∀ v ∈ items, T.Held w v) →
      T.Rel w .clean Value.names (k cl items) (l cl items)) :
    T.Rel w .clean Value.names
      (do
        let cl ← Run.ofExcept (Member.closureArg name f)
        let items ← Run.ofExcept (Member.Items.itemsOf (← Run.handles) recv)
        k cl items)
      (do
        let cl ← Run.ofExcept (Member.closureArg name f)
        let items ← Run.ofExcept (Member.Items.itemsOf (← Run.handles) recv)
        l cl items) :=
  given (gives_closureArg hf) fun cl hc => handles fun _ =>
    given (Member.Items.gives_itemsOf hr) fun items hi => h cl items hc hi

theorem ofFilter : T.OfMember (.apply Member.Items.filter) := by
  intro w call₁ call₂ v args h hv ha
  unfold Member.Items.filter
  split
  · refine overItems (List.forall_mem_cons.mp ha).1 hv fun cl items hc hi => ?_
    refine T.bind (filterItems h items hc hi) fun kept w' _ hk => ret ?_
    exact fit_value.mpr (Hereditary.list.mpr (Names.fit_ofValues.mp hk))
  · exact ofExcept (gives_arity _ _ _)

theorem ofMap : T.OfMember (.apply Member.Items.map) := by
  intro w call₁ call₂ v args h hv ha
  unfold Member.Items.map
  split
  · refine overItems (List.forall_mem_cons.mp ha).1 hv fun cl items hc hi => ?_
    refine T.bind (mapItems h items hc hi) fun news w' _ hn => ret ?_
    exact fit_value.mpr (Hereditary.list.mpr (Names.fit_ofValues.mp hn))
  · exact ofExcept (gives_arity _ _ _)

theorem ofForeach : T.OfMember (.apply Member.Items.foreach) := by
  intro w call₁ call₂ v args h hv ha
  unfold Member.Items.foreach
  split
  · refine overItems (List.forall_mem_cons.mp ha).1 hv fun cl items hc hi => ?_
    exact andThen (forItems h items hc hi) fun _ _ _ => ret (fit_value.mpr Hereditary.unit)
  · exact ofExcept (gives_arity _ _ _)

theorem ofFold : T.OfMember (.apply Member.Items.fold) := by
  intro w call₁ call₂ v args h hv ha
  unfold Member.Items.fold
  split
  · rename_i f first
    obtain ⟨hf, ha⟩ := List.forall_mem_cons.mp ha
    refine overItems hf hv fun cl items hc hi => ?_
    exact foldItems h first items hc (val_of_held (List.forall_mem_cons.mp ha).1) hi
  · exact ofExcept (gives_arity _ _ _)

/-- What members have in common that call a closure for the characters of a text. -/
theorem overChars {name : String} {f recv : Value} {k l : Closure → List Char → Run Value}
    (hf : T.Held w f)
    (h : ∀ cl cs, T.Held w (.closure cl) → T.Rel w .clean Value.names (k cl cs) (l cl cs)) :
    T.Rel w .clean Value.names
      (do
        let cl ← Run.ofExcept (Member.closureArg name f)
        let cs ← Run.ofExcept (Member.Chars.charsOf (← Run.handles) recv)
        k cl cs)
      (do
        let cl ← Run.ofExcept (Member.closureArg name f)
        let cs ← Run.ofExcept (Member.Chars.charsOf (← Run.handles) recv)
        l cl cs) :=
  given (gives_closureArg hf) fun cl hc => handles fun hs =>
    given (Member.Chars.plain_charsOf hs recv) fun cs _ => h cl cs hc

theorem ofFilterChars : T.OfMember (.apply Member.Chars.filter) := by
  intro w call₁ call₂ v args h hv ha
  unfold Member.Chars.filter
  split
  · refine overChars (List.forall_mem_cons.mp ha).1 fun cl cs hc => ?_
    exact andThen (filterChars h cs hc) fun _ _ _ => ret (fit_value.mpr (Hereditary.ofChars _))
  · exact ofExcept (gives_arity _ _ _)

theorem ofForeachChar : T.OfMember (.apply Member.Chars.foreach) := by
  intro w call₁ call₂ v args h hv ha
  unfold Member.Chars.foreach
  split
  · refine overChars (List.forall_mem_cons.mp ha).1 fun cl cs hc => ?_
    exact andThen (forChars h cs hc) fun _ _ _ => ret (fit_value.mpr Hereditary.unit)
  · exact ofExcept (gives_arity _ _ _)

theorem ofReadFile : T.OfMember (.file Member.OpenFile.read) := by
  intro w v args
  unfold Member.OpenFile.read
  split
  · refine given (Member.OpenFile.plain_fileOf v) fun f _ => ?_
    refine andThen (T.onDisk (κ := fun _ => []) _ fun d => ?_) fun text _ _ =>
      ret (fit_value.mpr (Hereditary.str text))
    exact (Member.OpenFile.plain_read d f).mono fun _ _ => nofun
  · exact ofExcept (gives_arity _ _ _)

theorem put (f : FileId) (v : Value) {w : T.World} :
    T.Keeps w .clean (fun _ => .none) (Member.OpenFile.put f v) := by
  unfold Member.OpenFile.put
  split
  · exact T.panic f v
  · exact handles fun h => changeDisk fun d => Member.OpenFile.plain_write d f _

theorem putLines (f : FileId) : ∀ (lines : List Value) {w : T.World},
    T.Keeps w .clean (fun _ => .none) (Member.OpenFile.putLines f lines)
  | [], _ => ret fits_none
  | line :: rest, _ => by
    refine andThen (put f line) fun _ w₁ _ => ?_
    exact andThen (changeDisk fun d => Member.OpenFile.plain_write d f _) fun _ w₂ _ =>
      putLines f rest

theorem ofWriteFile : T.OfMember (.file Member.OpenFile.write) := by
  intro w v args
  unfold Member.OpenFile.write
  split
  · refine given (Member.OpenFile.plain_fileOf v) fun f _ => ?_
    exact andThen (put f _) fun _ _ _ => ret (fit_value.mpr Hereditary.unit)
  · exact ofExcept (gives_arity _ _ _)

theorem ofWriteLines : T.OfMember (.file Member.OpenFile.writeLines) := by
  intro w v args
  unfold Member.OpenFile.writeLines
  split
  · refine given (Member.OpenFile.plain_fileOf v) fun f _ => ?_
    exact andThen (putLines f _) fun _ _ _ => ret (fit_value.mpr Hereditary.unit)
  · exact ofExcept (.error rfl)
  · exact ofExcept (gives_arity _ _ _)

theorem ofCloseFile : T.OfMember (.file Member.OpenFile.close) := by
  intro w v args
  unfold Member.OpenFile.close
  split
  · exact given (Member.OpenFile.plain_fileOf v) fun f _ =>
      onFiles fun d => .ok (Value.leadsNowhere_of_isBare rfl)
  · exact ofExcept (gives_arity _ _ _)

theorem ofIsOpen : T.OfMember (.file Member.OpenFile.isOpen) := by
  intro w v args
  unfold Member.OpenFile.isOpen
  split
  · exact given (Member.OpenFile.plain_fileOf v) fun f _ =>
      handles fun h => ret (fit_value.mpr (Hereditary.bool _))
  · exact ofExcept (gives_arity _ _ _)

theorem member {kind : Kind} {name : String} {m : Member} (h : Member.find? kind name = some m) :
    T.OfMember m := by
  have all : ∀ entry ∈ Member.table kind, T.OfMember entry.2 := by
    cases kind <;>
      simp [Member.table, Member.Items.ofList, Member.Items.shared, Member.Chars.ofStr,
        Member.Chars.ofChar, Member.Entries.ofDict, Member.Entries.ofOption,
        Member.OpenFile.ofFile, ofFilter, ofMap, ofForeach, ofFold, ofFilterChars, ofForeachChar,
        ofReadFile, ofWriteFile, ofWriteLines, ofCloseFile, ofIsOpen] <;>
      simp [OfMember]
  obtain ⟨before, after, heq, -⟩ := List.lookup_eq_some_iff.mp h
  exact all (name, m) (by simp [heq])

end TreeScript.Run.Tracking
