import TreeScript.Eval.Basic
import TreeScript.Proofs.Machine.Step
import TreeScript.Proofs.Places.Slots

/-!
# Assignment to places

A plain assignment replaces what stands at a place or adds an entry to a dictionary. In both cases
the place then reads as what was assigned, every place beside it reads as before, and whatever it
lies in keeps its length and the order of its entries, but for the entry that is added at the end.
An assignment that fails leaves the whole value as it was, and no write goes through a tuple.
-/
namespace TreeScript

variable {h : Handles} {whole whole' part new index other v : Value} {path q : List Value}
  {put : Value → Except Fault Value} {α : Type}

namespace Value

/-- Assigning to a slot. The text is asked for a character by `=` and by the slot alike. -/
theorem Slot.assignElement_eq (slot : Slot h whole index part put) (v : Value) :
    assignElement h index v whole = Edit.set (assign h part v >>= put) whole := by
  have edited : editLast h index (.replace (assign h · v)) whole =
      Edit.set (assign h part v >>= put) whole := slot.edit_set rfl
  cases slot with
  | item found => exact edited
  | entry named there =>
    simp only [assignElement, named, Dict.contains, there, Option.isSome_some, if_pos]
    exact edited
  | char found =>
    simp only [assignElement, editChar, found, Edit.replace, Text.replaceChar?_eq, Option.getD_some]
    cases v <;> rfl

theorem assignElement_absent {d : Dict Value} {key : Key} (named : keyOf h d index = .ok key)
    (absent : d.get? key = Option.none) (v : Value) :
    assignElement h index v (dict d) = Edit.set (.ok (dict (d.insert key v))) (dict d) := by
  simp only [assignElement, named, Dict.contains, absent]
  rfl

/-- An index is assigned to at a slot, or as a new key of a dictionary, or not at all. -/
theorem assignElement_cases (h : Handles) (index v whole : Value) :
    (∃ part put, Slot h whole index part put) ∨
      (∃ d key, whole = dict d ∧ keyOf h d index = .ok key ∧ d.get? key = Option.none) ∨
        ∃ fault, assignElement h index v whole = .error fault whole := by
  rcases slot_or_stops h whole index with slot | ⟨fault, stops⟩
  · exact .inl slot
  · refine .inr ?_
    cases whole with
    | dict d =>
      cases named : keyOf h d index with
      | error fault => exact .inr ⟨fault, by simp only [assignElement, named]⟩
      | ok key =>
        cases there : d.get? key with
        | none => exact .inl ⟨d, key, rfl, named, there⟩
        | some old =>
          refine .inr ⟨fault, ?_⟩
          simp only [assignElement, named, Dict.contains, there, Option.isSome_some, if_pos]
          exact stops _
    | _ => exact .inr ⟨fault, stops _⟩

theorem splitLast_append (path : List Value) (index : Value) :
    splitLast (path ++ [index]) = Option.some (path, index) := by
  induction path with
  | nil => rfl
  | cons first path ih =>
    rw [List.cons_append, splitLast, ih]
    · rfl
    · simp

theorem assignAt_append (h : Handles) (path : List Value) (index v : Value) :
    assignAt h .plain (path ++ [index]) v = edit h path (assignElement h index v) := by
  simp only [assignAt, splitLast_append]

namespace Opens

theorem snoc (opens : Opens h path whole mid put) (slot : Slot h mid index part put') :
    ∃ put, Opens h (path ++ [index]) whole part put := by
  induction opens with
  | here => exact ⟨_, .deeper slot (.here part)⟩
  | deeper first _ ih =>
    obtain ⟨put, opens⟩ := ih slot
    exact ⟨_, .deeper first opens⟩

theorem exists_slot (opens : Opens h (path ++ [index]) whole part put) :
    ∃ mid put₀ put₁, Opens h path whole mid put₀ ∧ Slot h mid index part put₁ ∧
      put = fun new => put₁ new >>= put₀ := by
  induction path generalizing whole put with
  | nil =>
    cases opens with
    | deeper slot opens =>
      cases opens
      refine ⟨whole, .ok, _, .here whole, slot, ?_⟩
      funext new
      exact (bind_pure _).symm
  | cons first path ih =>
    cases opens with
    | deeper slot opens =>
      obtain ⟨mid, put₀, put₁, opens, last, same⟩ := ih opens
      refine ⟨mid, _, put₁, .deeper slot opens, last, ?_⟩
      funext new
      rw [same]
      exact bind_assoc ..

/-- Plain assignment to what is there. -/
theorem assignAt_eq (opens : Opens h path whole part put) (v : Value) :
    assignAt h .plain path v whole = Edit.set (assign h part v >>= put) whole := by
  rcases List.eq_nil_or_concat path with rfl | ⟨parents, index, rfl⟩
  · exact opens.edit_replace (assign h · v)
  · rw [List.concat_eq_append] at opens ⊢
    obtain ⟨mid, put₀, put₁, above, slot, rfl⟩ := opens.exists_slot
    rw [assignAt_append, above.edit_set (slot.assignElement_eq v), bind_assoc]

/-- Plain assignment at a missing key. -/
theorem assignAt_absent {d : Dict Value} {key : Key} (opens : Opens h path whole (dict d) put)
    (named : keyOf h d index = .ok key) (absent : d.get? key = Option.none) (v : Value) :
    assignAt h .plain (path ++ [index]) v whole = Edit.set (put (dict (d.insert key v))) whole := by
  rw [assignAt_append, opens.edit_set (assignElement_absent named absent v)]
  rfl

end Opens

/-- What plain assignment of a value makes of the whole. -/
inductive Stores (h : Handles) (v whole whole' : Value) : List Value → Prop
  | replaced {path : List Value} {part new : Value} {put : Value → Except Fault Value}
    (opens : Opens h path whole part put) (kept : assign h part v = .ok new)
    (stored : put new = .ok whole') : Stores h v whole whole' path
  | added {path : List Value} {index : Value} {d : Dict Value} {key : Key}
    {put : Value → Except Fault Value} (opens : Opens h path whole (dict d) put)
    (named : keyOf h d index = .ok key) (absent : d.get? key = Option.none)
    (stored : put (dict (d.insert key v)) = .ok whole') :
    Stores h v whole whole' (path ++ [index])

/-- Plain assignment replaces what is there, adds an entry, or leaves the whole as it was. -/
theorem assignAt_plain_cases (h : Handles) (path : List Value) (v whole : Value) :
    (∃ whole', assignAt h .plain path v whole = .ok () whole' ∧ Stores h v whole whole' path) ∨
      ∃ fault, assignAt h .plain path v whole = .error fault whole := by
  have replaced {part : Value} {put : Value → Except Fault Value}
      (opens : Opens h path whole part put) :
      (∃ whole', assignAt h .plain path v whole = .ok () whole' ∧ Stores h v whole whole' path) ∨
        ∃ fault, assignAt h .plain path v whole = .error fault whole := by
    rw [opens.assignAt_eq v]
    cases kept : assign h part v >>= put with
    | ok whole' =>
      obtain ⟨new, kept, stored⟩ := bind_eq_ok.mp kept
      exact .inl ⟨whole', rfl, .replaced opens kept stored⟩
    | error fault => exact .inr ⟨fault, rfl⟩
  rcases List.eq_nil_or_concat path with rfl | ⟨parents, index, rfl⟩
  · exact replaced (.here whole)
  rw [List.concat_eq_append] at replaced ⊢
  rcases opens_or_stops h parents whole with ⟨mid, put, opens⟩ | stops
  · rcases assignElement_cases h index v mid with
      ⟨part, put', slot⟩ | ⟨d, key, rfl, named, absent⟩ | ⟨fault, fails⟩
    · obtain ⟨put, opens⟩ := opens.snoc slot
      exact replaced opens
    · rw [opens.assignAt_absent named absent v]
      cases stored : put (dict (d.insert key v)) with
      | ok whole' => exact .inl ⟨whole', rfl, .added opens named absent stored⟩
      | error fault => exact .inr ⟨fault, rfl⟩
    · have failed : assignElement h index v mid = Edit.set (.error fault) mid := fails
      rw [assignAt_append, opens.edit_set failed]
      exact .inr ⟨fault, rfl⟩
  · rw [assignAt_append]
    exact .inr (stops _)

theorem assign_eq_ok {old : Value} (kept : assign h old v = .ok new) : new = convertFor old v := by
  unfold assign at kept
  split at kept <;> cases kept
  rfl

/-- The dictionary gets an entry that it did not have, and this is the last one then. -/
inductive Grows (h : Handles) (index : Value) : Value → Value → Prop
  | entry {d d' : Dict Value} {key : Key} (named : keyOf h d index = .ok key)
    (absent : key ∉ d.keys) (last : d'.keys = d.keys ++ [key]) : Grows h index (dict d) (dict d')

/-- What plain assignment of `v` to the place leaves. -/
structure Assigned (h : Handles) (path : List Value) (v whole whole' : Value) : Prop where
  /-- The new value reads as it was kept by the place of the old one. -/
  replaced : ∀ part, read h path whole = .ok part → read h path whole' = .ok (convertFor part v)
  added : ∀ fault, read h path whole = .error fault → read h path whole' = .ok v
  /-- What was to be read beside the place still is, and nothing else. -/
  beside : ∀ q, ¬ q <+: path → ¬ path <+: q →
    (read h q whole').toOption = (read h q whole).toOption
  /-- The failures to read are the same too, unless the first key fixes the kind of all keys. -/
  failures : read h path.dropLast whole ≠ .ok (dict .undetermined) →
    ∀ q, ¬ q <+: path → ¬ path <+: q → read h q whole' = read h q whole
  above : ∀ q, q <+: path → q ≠ path → ∃ c c', read h q whole = .ok c ∧ read h q whole' = .ok c' ∧
    (SameShape c c' ∨ ∃ index, path = q ++ [index] ∧ Grows h index c c')

theorem Opens.assigned_replaced (opens : Opens h path whole part put)
    (kept : assign h part v = .ok new) (stored : put new = .ok whole') :
    Assigned h path v whole whole' := by
  refine ⟨fun old there => ?_, fun fault missing => ?_, fun q off beyond => ?_,
    fun _ q off beyond => ?_, fun q above strict => ?_⟩
  · rw [opens.read_eq] at there
    cases there
    rw [opens.read_put stored, assign_eq_ok kept]
  · rw [opens.read_eq] at missing
    cases missing
  · rw [opens.read_put_of_apart stored off beyond]
  · exact opens.read_put_of_apart stored off beyond
  · obtain ⟨c, c', before, after, shape⟩ := opens.sameShape stored above strict
    exact ⟨c, c', before, after, .inl shape⟩

/-- What another index leads to beside an entry that is added. A key of another kind than that of
the first entry fails in another way than before. -/
theorem element_insert_absent {d : Dict Value} {key : Key} (named : keyOf h d index = .ok key)
    (ne : other ≠ index) (v : Value) :
    element h (dict (d.insert key v)) other = element h (dict d) other ∨
      d = .undetermined ∧ (element h (dict (d.insert key v)) other).toOption = Option.none ∧
        (element h (dict d) other).toOption = Option.none := by
  cases d with
  | ofKind => exact .inl (element_insert_of_ne named rfl ne)
  | undetermined =>
    refine .inr ⟨rfl, ?_, ?_⟩
    · simp only [element]
      cases hk : keyOf h (Dict.insert .undetermined key v) other with
      | error fault => rfl
      | ok key' =>
        simp only [get?_insert_of_ne named hk ne]
        rfl
    · simp only [element]
      cases keyOf h (Dict.undetermined : Dict Value) other <;> rfl

/-- What does not lie at an entry that is added or above it is read as before. -/
theorem Opens.read_added {d : Dict Value} {key : Key} (opens : Opens h path whole (dict d) put)
    (named : keyOf h d index = .ok key) (stored : put (dict (d.insert key v)) = .ok whole')
    (off : ¬ q <+: path ++ [index]) (beyond : ¬ path ++ [index] <+: q) :
    read h q whole' = read h q whole ∨
      d = .undetermined ∧ (read h q whole').toOption = Option.none ∧
        (read h q whole).toOption = Option.none := by
  by_cases inside : path <+: q
  · obtain ⟨rest, rfl⟩ := inside
    rw [read_append, read_append, opens.read_put stored, opens.read_eq]
    show read h rest (dict (d.insert key v)) = read h rest (dict d) ∨
      d = .undetermined ∧ (read h rest (dict (d.insert key v))).toOption = Option.none ∧
        (read h rest (dict d)).toOption = Option.none
    cases rest with
    | nil =>
      rw [List.append_nil] at off
      exact absurd (List.prefix_append path [index]) off
    | cons other rest =>
      have ne : other ≠ index := by
        rintro rfl
        exact beyond ⟨rest, by simp⟩
      rw [read, read]
      rcases element_insert_absent named ne v with same | ⟨first, after, before⟩
      · exact .inl (by rw [same])
      · refine .inr ⟨first, ?_, ?_⟩
        · cases he : element h (dict (d.insert key v)) other with
          | ok _ => rw [he] at after; cases after
          | error fault => rfl
        · cases he : element h (dict d) other with
          | ok _ => rw [he] at before; cases before
          | error fault => rfl
  · exact .inl (opens.read_put_of_apart stored
      (fun above => off (above.trans (List.prefix_append path [index]))) inside)

theorem Opens.read_absent {d : Dict Value} {key : Key} (opens : Opens h path whole (dict d) put)
    (named : keyOf h d index = .ok key) (absent : d.get? key = Option.none) :
    read h (path ++ [index]) whole = .error (.keyNotFound (index.quoted h)) := by
  rw [read_append, opens.read_eq]
  show read h [index] (dict d) = _
  simp only [read, element, named, absent]

theorem Opens.assigned_added {d : Dict Value} {key : Key} (opens : Opens h path whole (dict d) put)
    (named : keyOf h d index = .ok key) (absent : d.get? key = Option.none)
    (stored : put (dict (d.insert key v)) = .ok whole') :
    Assigned h (path ++ [index]) v whole whole' := by
  have after : read h (path ++ [index]) whole' = .ok v := by
    rw [read_append, opens.read_put stored]
    show read h [index] (dict (d.insert key v)) = _
    simp only [read, element, keyOf_insert named, Dict.get?_insert, if_pos]
  refine ⟨fun part there => ?_, fun _ _ => after, fun q off beyond => ?_,
    fun fixed q off beyond => ?_, fun q above strict => ?_⟩
  · rw [opens.read_absent named absent] at there
    cases there
  · rcases opens.read_added named stored off beyond with same | ⟨-, after, before⟩
    · rw [same]
    · rw [after, before]
  · rw [List.dropLast_concat, opens.read_eq] at fixed
    refine (opens.read_added named stored off beyond).resolve_right ?_
    rintro ⟨rfl, -⟩
    exact fixed rfl
  · rcases List.prefix_concat_iff.mp above with same | above
    · exact absurd same strict
    · by_cases same : q = path
      · subst same
        have missing := Dict.get?_eq_none_iff.mp absent
        refine ⟨_, _, opens.read_eq, opens.read_put stored, .inr ⟨index, rfl, ?_⟩⟩
        refine .entry named missing ?_
        rw [Dict.keys_insert, if_neg missing]
      · obtain ⟨c, c', before, after, shape⟩ := opens.sameShape stored above same
        exact ⟨c, c', before, after, .inl shape⟩

theorem Stores.assigned (stores : Stores h v whole whole' path) :
    Assigned h path v whole whole' := by
  cases stores with
  | replaced opens kept stored => exact opens.assigned_replaced kept stored
  | added opens named absent stored => exact opens.assigned_added named absent stored

theorem assignAt_compound {op : AssignOp} {operator : BinaryOp}
    (compound : op.binary? = Option.some operator) (path : List Value) (v : Value) :
    assignAt h op path v = edit h path (.replace (assignWith h op · v)) := by
  cases op with
  | plain => cases compound
  | _ => rfl

/-- An assignment that fails leaves the whole as it was. -/
theorem assignAt_error {op : AssignOp} {fault : Fault}
    (failed : assignAt h op path v whole = .error fault whole') : whole' = whole := by
  rcases op.plain_or_compound with rfl | ⟨operator, compound⟩
  · rcases assignAt_plain_cases h path v whole with ⟨_, done, -⟩ | ⟨fault', fails⟩
    · rw [done] at failed
      cases failed
    · rw [fails] at failed
      cases failed
      rfl
  · rw [assignAt_compound compound] at failed
    rcases opens_or_stops h path whole with ⟨part, put, opens⟩ | stops
    · rw [opens.edit_replace] at failed
      exact Edit.set_error failed
    · obtain ⟨fault', fails⟩ := stops (.replace (assignWith h op · v))
      rw [fails] at failed
      cases failed
      rfl

/-- The path leads through a tuple in the value. -/
def ThroughTuple (h : Handles) (path : List Value) (v : Value) : Prop :=
  ∃ q items, q <+: path ∧ q ≠ path ∧ read h q v = .ok (tuple items)

theorem ThroughTuple.not_opens (through : ThroughTuple h path whole) :
    ¬ Opens h path whole part put := by
  obtain ⟨q, items, above, strict, there⟩ := through
  intro opens
  obtain ⟨c, c', before, -, shape⟩ := opens.sameShape opens.put_part above strict
  rw [there] at before
  cases before
  cases shape

theorem ThroughTuple.edit (through : ThroughTuple h path whole) (f : Edit α) :
    ∃ fault, edit h path f whole = .error fault whole := by
  rcases opens_or_stops h path whole with ⟨part, put, opens⟩ | stops
  · exact absurd opens through.not_opens
  · exact stops f

theorem ThroughTuple.assignAt (through : ThroughTuple h path whole) (op : AssignOp) (v : Value) :
    ∃ fault, assignAt h op path v whole = .error fault whole := by
  rcases op.plain_or_compound with rfl | ⟨operator, compound⟩
  · rcases assignAt_plain_cases h path v whole with ⟨whole', -, stores⟩ | fails
    · obtain ⟨q, items, above, strict, there⟩ := through
      obtain ⟨c, c', before, -, shape | ⟨index, -, grows⟩⟩ := stores.assigned.above q above strict
      · rw [there] at before
        cases before
        cases shape
      · rw [there] at before
        cases before
        cases grows
    · exact fails
  · rw [assignAt_compound compound]
    exact through.edit _

end Value

/-- Writing the value that a cell has changes nothing. -/
theorem Store.setValue_eq_self (s : Store) (i : CellId) : s.setValue i (s.cell i).value = s := by
  have same : s.cells.modify i (fun cell => { cell with value := (s.cell i).value }) = s.cells := by
    apply Array.ext_getElem?
    intro j
    rw [Array.getElem?_modify]
    split
    · rename_i here
      subst here
      rw [Store.cell, cell?]
      cases s.cells[i]? <;> rfl
    · rfl
  rw [setValue, same]

namespace Place

variable {i : CellId} {m m' : Machine} {a : α} {fault : Fault} {f : Handles → Edit α}

theorem checkWrite_of_not_const (writable : (m.store.cell i).attrs.isConst = false) :
    (m.store.cell i).checkWrite false = .ok () := by
  simp [Cell.checkWrite, writable]

theorem editRoot_ok (writable : (m.store.cell i).attrs.isConst = false) (path : List Value)
    (done : f m.handles (m.store.cell i).value = .ok a new) :
    (⟨.inl i, path⟩ : Place).editRoot f m =
      .ok a { m with store := m.store.setValue i new } := by
  simp only [editRoot, Run.editCell, checkWrite_of_not_const writable, done]

/-- An edit of a variable that fails and leaves the value alone leaves the machine alone. -/
theorem editRoot_error (writable : (m.store.cell i).attrs.isConst = false) (path : List Value)
    (fails : f m.handles (m.store.cell i).value = .error fault (m.store.cell i).value) :
    (⟨.inl i, path⟩ : Place).editRoot f m = .error (m.raised fault) m := by
  simp only [editRoot, Run.editCell, checkWrite_of_not_const writable, fails]
  rw [Store.setValue_eq_self]

/-- The places in a variable are lenses. -/
theorem lens_laws (there : i < m.store.cells.size)
    (writable : (m.store.cell i).attrs.isConst = false) (path : List Value) :
    (∀ v m', (⟨.inl i, path⟩ : Place).assign .plain v m = .ok () m' →
      m' = { m with store := m.store.setValue i (m'.store.cell i).value } ∧
      Value.Assigned m.handles path v (m.store.cell i).value (m'.store.cell i).value) ∧
    (∀ op v stop m', (⟨.inl i, path⟩ : Place).assign op v m = .error stop m' → m' = m) ∧
    (Value.ThroughTuple m.handles path (m.store.cell i).value →
      (∀ op v, ∃ fault, (⟨.inl i, path⟩ : Place).assign op v m =
        .error (m.raised fault) m) ∧
      ∀ {α : Type} (f : Handles → Edit α), ∃ fault, (⟨.inl i, path⟩ : Place).edit f m =
        .error (m.raised fault) m) := by
  refine ⟨fun v m' done => ?_, fun op v stop m' failed => ?_, fun through => ⟨fun op v => ?_,
    fun f => ?_⟩⟩
  · rcases Value.assignAt_plain_cases m.handles path v (m.store.cell i).value with
      ⟨value, stored, stores⟩ | ⟨fault, fails⟩
    · rw [assign, editRoot_ok writable path stored] at done
      cases done
      have written := congrArg Cell.value (Store.cell_setValue_self value there)
      exact ⟨by rw [written], by rw [written]; exact stores.assigned⟩
    · rw [assign, editRoot_error writable path fails] at done
      cases done
  · cases result : Value.assignAt m.handles op path v (m.store.cell i).value with
    | ok _ value =>
      rw [assign, editRoot_ok writable path result] at failed
      cases failed
    | error fault value =>
      rw [Value.assignAt_error result] at result
      rw [assign, editRoot_error writable path result] at failed
      cases failed
      rfl
  · obtain ⟨fault, fails⟩ := through.assignAt op v
    exact ⟨fault, editRoot_error writable path fails⟩
  · obtain ⟨fault, fails⟩ := through.edit (f m.handles)
    exact ⟨fault, editRoot_error writable path fails⟩

/-- A character of a text in a dictionary in a list is assigned to. Assigning a number there or
assigning to the tuple in the list fails. -/
theorem nested_assignment :
    let value (text : String) : Value :=
      .list [.tuple [.int 1], .dict (.ofKind .int [(.int 7, .str text)])]
    let machine (text : String) : Machine :=
      ⟨⟨.empty, #[⟨"x", value text, .none⟩], 0⟩, .empty, .silent, [], .empty none, [], [], none⟩
    let m := machine "ab"
    let path : List Value := [.int 1, .int 7, .int 0]
    Value.Assigned m.handles path (.char 'z') (value "ab") (value "zb") ∧
      (∃ stop, (⟨.inl 0, path⟩ : Place).assign .add (.int 1) m = .error stop m) ∧
      ∃ fault, (⟨.inl 0, [.int 0, .int 0]⟩ : Place).assign .plain (.int 2) m =
        .error (m.raised fault) m := by
  intro value machine m path
  obtain ⟨succeeds, fails, -⟩ := lens_laws (m := m) (i := 0) (by decide) rfl path
  obtain ⟨-, -, through⟩ := lens_laws (m := m) (i := 0) (by decide) rfl [.int 0, .int 0]
  refine ⟨(succeeds (.char 'z') (machine "zb") ?_).2, ?_, (through ?_).1 _ _⟩
  · rfl
  · have stops : ∃ stop m', (⟨.inl 0, path⟩ : Place).assign .add (.int 1) m = .error stop m' :=
      ⟨_, _, rfl⟩
    obtain ⟨stop, m', failed⟩ := stops
    exact ⟨stop, failed.trans (by rw [fails _ _ _ _ failed])⟩
  · exact ⟨[.int 0], [.int 1], by simp, by simp, rfl⟩

end Place

end TreeScript
