import TreeScript.Proofs.Lifetime.Worlds

/-!
# The parts of values

A value has all that it holds for parts, down to what holds nothing. Values come about in such a
way that all dictionaries among their parts are proper.
-/
namespace TreeScript

namespace Value

/-- What a collection or an option holds. -/
def children : Value → List Value
  | list items => items
  | tuple items => items
  | dict d => d.values
  | some v => [v]
  | _ => []

end Value

mutual

/-- The value itself, and all values in it. -/
def Value.parts : Value → List Value
  | .list items => .list items :: partsOfItems items
  | .tuple items => .tuple items :: partsOfItems items
  | .dict (.ofKind kind entries) => .dict (.ofKind kind entries) :: partsOfEntries entries
  | .some v => .some v :: v.parts
  | v => [v]

def partsOfItems : List Value → List Value
  | [] => []
  | v :: rest => v.parts ++ partsOfItems rest

def partsOfEntries : List (Key × Value) → List Value
  | [] => []
  | (_, v) :: rest => v.parts ++ partsOfEntries rest

end

theorem partsOfItems_eq (items : List Value) : partsOfItems items = items.flatMap Value.parts := by
  induction items with
  | nil => rfl
  | cons v rest ih => rw [partsOfItems, ih, List.flatMap_cons]

theorem partsOfEntries_eq (entries : List (Key × Value)) :
    partsOfEntries entries = (entries.map Prod.snd).flatMap Value.parts := by
  induction entries with
  | nil => rfl
  | cons e rest ih => rw [partsOfEntries, ih, List.map_cons, List.flatMap_cons]

namespace Value

theorem parts_eq (v : Value) : v.parts = v :: v.children.flatMap parts := by
  cases v with
  | list items | tuple items => rw [parts, partsOfItems_eq]; rfl
  | dict d =>
    cases d with
    | undetermined => rfl
    | ofKind kind entries => rw [parts, partsOfEntries_eq]; rfl
  | some v => rw [parts, children, List.flatMap_singleton]
  | _ => rfl

/-- All parts of the value satisfy `P`. -/
def Throughout (P : Value → Prop) (v : Value) : Prop := ∀ w ∈ v.parts, P w

theorem throughout_iff {P : Value → Prop} {v : Value} :
    v.Throughout P ↔ P v ∧ ∀ w ∈ v.children, w.Throughout P := by
  simp only [Throughout, parts_eq v, List.forall_mem_cons, List.mem_flatMap]
  exact and_congr_right fun _ =>
    ⟨fun h w hw u hu => h u ⟨w, hw, hu⟩, fun h u ⟨w, hw, hu⟩ => h w hw u hu⟩

end Value

mutual

/-- What holds of a value when it holds of all that the value holds, holds of all values. -/
theorem Value.induction {P : Value → Prop} (step : ∀ v : Value, (∀ w ∈ v.children, P w) → P v) :
    ∀ v, P v
  | .list items => step _ (inductionItems step items)
  | .tuple items => step _ (inductionItems step items)
  | .dict .undetermined => step _ nofun
  | .dict (.ofKind _ entries) => step _ (inductionEntries step entries)
  | .some v => step _ (List.forall_mem_singleton.mpr (Value.induction step v))
  | .int _ | .float _ | .bool _ | .char _ | .str _ | .none | .file _ | .closure _ | .object _
  | .module _ | .unit => step _ nofun

theorem inductionItems {P : Value → Prop} (step : ∀ v : Value, (∀ w ∈ v.children, P w) → P v) :
    ∀ items : List Value, ∀ w ∈ items, P w
  | [] => nofun
  | v :: rest => List.forall_mem_cons.mpr ⟨Value.induction step v, inductionItems step rest⟩

theorem inductionEntries {P : Value → Prop} (step : ∀ v : Value, (∀ w ∈ v.children, P w) → P v) :
    ∀ entries : List (Key × Value), ∀ w ∈ entries.map Prod.snd, P w
  | [] => nofun
  | (_, v) :: rest =>
    List.forall_mem_cons.mpr ⟨Value.induction step v, inductionEntries step rest⟩

end

namespace Value

variable {P : Dict Value → Prop} {v w : Value} {d : Dict Value} {items : List Value}

/-- All dictionaries among the parts satisfy `P`. -/
def Dicts (P : Dict Value → Prop) (v : Value) : Prop := v.Throughout fun w => ∀ d, w = dict d → P d

theorem dicts_iff : v.Dicts P ↔ (∀ d, v = dict d → P d) ∧ ∀ w ∈ v.children, w.Dicts P :=
  throughout_iff

theorem Dicts.mono {Q : Dict Value → Prop} (h : v.Dicts P) (hPQ : ∀ d, P d → Q d) : v.Dicts Q :=
  fun w hw d is => hPQ d (h w hw d is)

@[simp] theorem dicts_list : (list items).Dicts P ↔ ∀ w ∈ items, w.Dicts P := by
  rw [dicts_iff]
  exact ⟨And.right, fun h => ⟨nofun, h⟩⟩

@[simp] theorem dicts_tuple : (tuple items).Dicts P ↔ ∀ w ∈ items, w.Dicts P := by
  rw [dicts_iff]
  exact ⟨And.right, fun h => ⟨nofun, h⟩⟩

@[simp] theorem dicts_some : (some v).Dicts P ↔ v.Dicts P := by
  rw [dicts_iff]
  exact ⟨fun h => h.2 v List.mem_cons_self, fun h => ⟨nofun, List.forall_mem_singleton.mpr h⟩⟩

@[simp] theorem dicts_dict : (dict d).Dicts P ↔ P d ∧ ∀ e ∈ d.entries, e.2.Dicts P := by
  rw [dicts_iff]
  refine and_congr ⟨fun h => h d rfl, ?_⟩ ?_
  · rintro h _ ⟨⟩
    exact h
  · exact List.forall_mem_map

theorem dicts_of_isBare (bare : v.isBare = true) : v.Dicts P := by
  cases v with
  | list | tuple | dict | some | closure | object | module => cases bare
  | _ => exact dicts_iff.mpr ⟨nofun, nofun⟩

/-- All dictionaries in the value are proper. -/
def Proper (v : Value) : Prop := v.Dicts Dict.Proper

instance : Hereditary Proper where
  bare := dicts_of_isBare
  list := dicts_list
  tuple := dicts_tuple
  some := dicts_some
  entries h := (dicts_dict.mp h).2
  emptyDict kind := dicts_dict.mpr ⟨Dict.proper_empty kind, by simp [Dict.entries_empty]⟩
  insert {d _ _} takes hd hv := by
    obtain ⟨proper, below⟩ := dicts_dict.mp hd
    exact dicts_dict.mpr
      ⟨proper.insert takes _, Dict.forall_insertEntry (p := Proper) hv d.entries below⟩
  erase {d} key hd := by
    obtain ⟨proper, below⟩ := dicts_dict.mp hd
    refine dicts_dict.mpr ⟨proper.erase key, ?_⟩
    rw [Dict.entries_erase]
    exact Dict.forall_removeEntry (p := Proper) d.entries below
  replaced hd kind keys below := dicts_dict.mpr ⟨(dicts_dict.mp hd).1.of_keys kind keys, below⟩

end Value

/-- That all cells hold proper values is an invariant. -/
def Store.holdsProper : Store.Invariant where
  Inv s := ∀ i, (s.cell i).value.Proper
  Val := Value.Proper
  hereditary := inferInstance
  closure _ := Value.dicts_iff.mpr ⟨nofun, nofun⟩
  object _ _ := Value.dicts_iff.mpr ⟨nofun, nofun⟩
  imported _ _ := Value.dicts_iff.mpr ⟨nofun, nofun⟩
  value i h := h i
  contextAdded _ h _ := h
  cellAdded _ h hv i :=
    forall_values_addCell (Q := fun _ => True) (fun i _ => h i) hv i trivial
  cellWritten _ h hv i :=
    forall_values_setValue (Q := fun _ => True) (fun i _ => h i) hv i trivial
  closureMade h := h
  released _ h := h
  updated _ h _ := h
  funcDeclared _ _ h := h
  moduleDeclared _ _ _ h := h

namespace Session

variable {s t : Session}

/-- In a session that is handed proper values, all cells hold proper values, and lines give proper
values. -/
theorem proper {t : Session}
    (h : Relation.ReflTransGen (StepIf fun _ work => ∀ v ∈ work.values, v.Proper) s t)
    (begins : ∀ i, (s.machine.store.cell i).value.Proper) :
    (∀ i, (t.machine.store.cell i).value.Proper) ∧
      ∀ line v, (t.runLine line).1 = .value v → v.Proper := by
  have cells : ∀ i, (t.machine.store.cell i).value.Proper :=
    (keeps (I := Store.holdsProper) h (fun _ work none v hv => by rw [none] at hv; cases hv)
      (fun _ _ _ handed => handed) begins).1
  refine ⟨cells, fun line v given => ?_⟩
  obtain ⟨m', ran⟩ := statement_of_runLine given
  have ends := Store.holdsProper.ends (Eval.tracked_statement line t.world) t.config t.fuel cells
    nofun
  rw [Run.Ends] at ends
  have ran : (do
      return (← Run.holding [.context t.world]
        ((evaluator t.config t.fuel).stmt line t.world)).value : Run Value) t.machine =
      .ok v m' := ran
  rw [ran] at ends
  exact ends.2 v List.mem_cons_self

end Session

end TreeScript
