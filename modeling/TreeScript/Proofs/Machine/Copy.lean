import TreeScript.Proofs.Machine.Step
import TreeScript.Proofs.Value.Names

/-!
# Copies as steps

Making a copy only adds contexts and cells, and sets up the contexts that it adds. What copying does
to a store is put together from these steps once, for all ways of keeping account of stores.
-/
namespace TreeScript.Store

/-- A way of keeping account of stores that is respected by the steps that make a copy. -/
structure Copying where
  /-- The store is one that is kept account of. -/
  Inv : Store → Prop
  /-- The value may be in the store. -/
  Val : Store → Value → Prop
  /-- The context is a copy in the making. -/
  Target : Store → CtxId → Prop
  Leads : Store → Store → Prop
  hereditary (s : Store) : Value.Hereditary (Val s)
  refl (s : Store) : Leads s s
  trans {s t u : Store} : Leads s t → Leads t u → Leads s u
  inv {s t : Store} : Inv s → Leads s t → Inv t
  val {s t : Store} {v : Value} : Inv s → Leads s t → Val s v → Val t v
  target {s t : Store} {c : CtxId} : Inv s → Leads s t → Target s c → Target t c
  val_of_target {s : Store} {c : CtxId} : Target s c → Val s (.object c)
  member {s : Store} {c : CtxId} {name : String} {cell : Cell} : Inv s → Val s (.object c) →
    (s.graph.localVar? c name).bind s.cell? = some cell → Val s cell.value
  addObject {s : Store} {c owner : CtxId} {decl : ClassDecl} {given : List (Param × Arg)}
    {arguments : List (String × CellId)} {members : List String} : Inv s → Val s (.object c) →
    s.graph.kind? c = some (.object owner decl given arguments members) →
      Leads s (s.addContext (.object owner decl [] [] [])).2 ∧
        Target (s.addContext (.object owner decl [] [] [])).2 s.graph.size
  declareFunc {s : Store} {c : CtxId} {decl : FuncDecl} : Inv s → Target s c →
    (Declaration.ofFunc c ⟨decl, c⟩).obstacle? s.graph = none →
      Leads s (s.modifyGraph (Declaration.ofFunc c ⟨decl, c⟩).apply)
  bindNew {s : Store} {c : CtxId} {cell : Cell} : Inv s → Target s c →
    Val s cell.value →
    (Declaration.ofVar c cell.name cell.name s.cells.size).obstacle? s.graph = none →
      Leads s (s.bindNew c cell)
  recordMember {s : Store} {c : CtxId} (name : String) : Inv s → Target s c →
    Leads s (s.modifyGraph (·.update c fun ctx =>
      { ctx with kind := Declaration.recordMember name ctx.kind }))

namespace Copying

variable {C : Copying} {s t : Store} {target : CtxId}

instance (C : Copying) (s : Store) : Value.Hereditary (C.Val s) := C.hereditary s

/-- What a part of a copy does: it leads to a store with what it gives. -/
def Copies (C : Copying) {α : Type} (Names : Store → α → Prop)
    (copy : α → Store → Option (α × Store)) : Prop :=
  ∀ a s b t, C.Inv s → Names s a → copy a s = some (b, t) → C.Leads s t ∧ Names t b

theorem leads_declareMethods : ∀ methods s, C.Inv s → C.Target s target →
    C.Leads s (s.declareMethods target methods)
  | [], s, _, _ => C.refl s
  | decl :: rest, s, hs, ht => by
    rw [declareMethods]
    cases h : (Declaration.ofFunc target ⟨decl, target⟩).obstacle? s.graph with
    | none =>
      have first := C.declareFunc hs ht h
      simp only [declare, Declaration.run, h]
      exact C.trans first (leads_declareMethods rest _ (C.inv hs first) (C.target hs first ht))
    | some fault =>
      simp only [declare, Declaration.run, h]
      exact leads_declareMethods rest s hs ht

theorem leads_declareMember (hs : C.Inv s) (ht : C.Target s target) (cell : Cell)
    (hv : C.Val s cell.value) : C.Leads s (s.declareMember target cell) := by
  cases h : (Declaration.ofVar target cell.name cell.name s.cells.size).obstacle? s.graph with
  | none =>
    simp only [declareMember, declareVar, addCell, declare, Declaration.run, h]
    exact C.bindNew hs ht hv h
  | some fault =>
    simp only [declareMember, declareVar, addCell, declare, Declaration.run, h]
    exact C.recordMember cell.name hs ht

theorem leads_copyMembers {copyValue : Value → Store → Option (Value × Store)}
    (hc : C.Copies C.Val copyValue) {source : CtxId} :
    ∀ names s t, C.Inv s → C.Val s (.object source) → C.Target s target →
      copyMembers copyValue source target names s = some t → C.Leads s t
  | [], s, t, _, _, _, h => by
    cases h
    exact C.refl s
  | name :: rest, s, t, hs, hsource, ht, h => by
    rw [copyMembers] at h
    split at h
    · exact leads_copyMembers hc rest s t hs hsource ht h
    · rename_i cell hcell
      split at h
      · cases h
      · rename_i value s₁ hv
        obtain ⟨first, within⟩ := hc _ _ _ _ hs (C.member hs hsource hcell) hv
        have hs₁ := C.inv hs first
        have second := leads_declareMember hs₁ (C.target hs first ht) { cell with name, value } within
        have both := C.trans first second
        exact C.trans both (leads_copyMembers hc rest _ t (C.inv hs both) (C.val hs both hsource)
          (C.target hs both ht) h)

theorem copies_copyObject {copyValue : Value → Store → Option (Value × Store)}
    (hc : C.Copies C.Val copyValue) :
    C.Copies (fun s c => C.Val s (.object c)) (copyObject copyValue) := by
  intro c s c' t hs hctx h
  rw [copyObject] at h
  split at h
  · rename_i owner decl given arguments members hk
    obtain ⟨s₂, hm, he⟩ := Option.map_eq_some_iff.mp h
    cases he
    obtain ⟨added, ht⟩ := C.addObject hs hctx hk
    have hs₁ := C.inv hs added
    have filled := leads_copyMembers hc members _ s₂ hs₁ (C.val hs added hctx) ht hm
    have hs₂ := C.inv hs₁ filled
    have ht₂ := C.target hs₁ filled ht
    have declared := leads_declareMethods decl.methods s₂ hs₂ ht₂
    exact ⟨C.trans (C.trans added filled) declared, C.val_of_target (C.target hs₂ declared ht₂)⟩
  · cases h
    exact ⟨C.refl s, hctx⟩

variable {copyObj : CtxId → Store → Option (CtxId × Store)}

theorem map_fst_copyEntries :
    ∀ entries s entries' t, copyEntries copyObj entries s = some (entries', t) →
      entries'.map Prod.fst = entries.map Prod.fst
  | [], s, entries', t, h => by
    cases h
    rfl
  | (k, v) :: rest, s, entries', t, h => by
    rw [copyEntries] at h
    split at h
    · cases h
    · rename_i v' s₁ _
      obtain ⟨⟨rest', t'⟩, hi, he⟩ := Option.map_eq_some_iff.mp h
      cases he
      exact congrArg (k :: ·) (map_fst_copyEntries rest s₁ rest' t hi)

/-- What stands at a key after copying is a copy of what stood there. -/
theorem lookup_copyEntries {key : Key} {v : Value} :
    ∀ entries s entries' t, copyEntries copyObj entries s = some (entries', t) →
      entries'.lookup key = some v →
      ∃ old s₁ t₁, entries.lookup key = some old ∧ copyWith copyObj old s₁ = some (v, t₁)
  | [], s, entries', t, h, found => by
    cases h
    cases found
  | (k, w) :: rest, s, entries', t, h, found => by
    rw [copyEntries] at h
    split at h
    · cases h
    · rename_i w' s₁ hcopy
      obtain ⟨⟨rest', t'⟩, hi, he⟩ := Option.map_eq_some_iff.mp h
      cases he
      rw [List.lookup_cons] at found ⊢
      split at found
      · cases found
        exact ⟨w, s, s₁, rfl, hcopy⟩
      · exact lookup_copyEntries rest s₁ rest' t hi found

mutual

theorem copies_copyWith (hc : C.Copies (fun s c => C.Val s (.object c)) copyObj) :
    ∀ v s v' t, C.Inv s → C.Val s v → copyWith copyObj v s = some (v', t) →
      C.Leads s t ∧ C.Val t v'
  | .list items, s, v', t, hs, hv, h => by
    obtain ⟨⟨items', t'⟩, hi, he⟩ := Option.map_eq_some_iff.mp h
    cases he
    obtain ⟨leads, within⟩ := copies_copyItems hc items s items' t hs (Value.Hereditary.list.mp hv) hi
    exact ⟨leads, Value.Hereditary.list.mpr within⟩
  | .tuple items, s, v', t, hs, hv, h => by
    obtain ⟨⟨items', t'⟩, hi, he⟩ := Option.map_eq_some_iff.mp h
    cases he
    obtain ⟨leads, within⟩ := copies_copyItems hc items s items' t hs (Value.Hereditary.tuple.mp hv) hi
    exact ⟨leads, Value.Hereditary.tuple.mpr within⟩
  | .dict (.ofKind kind entries), s, v', t, hs, hv, h => by
    obtain ⟨⟨entries', t'⟩, hi, he⟩ := Option.map_eq_some_iff.mp h
    cases he
    obtain ⟨leads, within⟩ :=
      copies_copyEntries hc entries s entries' t hs (Value.Hereditary.entries hv) hi
    exact ⟨leads, Value.Hereditary.replaced (C.val hs leads hv) rfl
      (map_fst_copyEntries entries s entries' t hi) within⟩
  | .some v, s, v', t, hs, hv, h => by
    obtain ⟨⟨w, t'⟩, hi, he⟩ := Option.map_eq_some_iff.mp h
    cases he
    obtain ⟨leads, within⟩ := copies_copyWith hc v s w t hs (Value.Hereditary.some.mp hv) hi
    exact ⟨leads, Value.Hereditary.some.mpr within⟩
  | .object c, s, v', t, hs, hv, h => by
    obtain ⟨⟨c', t'⟩, hi, he⟩ := Option.map_eq_some_iff.mp h
    cases he
    obtain ⟨leads, there⟩ := hc c s c' t hs hv hi
    exact ⟨leads, there⟩
  | .int _, s, v', t, _, hv, h | .float _, s, v', t, _, hv, h | .bool _, s, v', t, _, hv, h
  | .char _, s, v', t, _, hv, h | .str _, s, v', t, _, hv, h
  | .dict .undetermined, s, v', t, _, hv, h | .none, s, v', t, _, hv, h
  | .file _, s, v', t, _, hv, h | .closure _, s, v', t, _, hv, h | .module _, s, v', t, _, hv, h
  | .unit, s, v', t, _, hv, h => by
    cases h
    exact ⟨C.refl s, hv⟩

theorem copies_copyItems (hc : C.Copies (fun s c => C.Val s (.object c)) copyObj) :
    ∀ items s items' t, C.Inv s → (∀ v ∈ items, C.Val s v) →
      copyItems copyObj items s = some (items', t) →
      C.Leads s t ∧ ∀ v ∈ items', C.Val t v
  | [], s, items', t, _, hv, h => by
    cases h
    exact ⟨C.refl s, hv⟩
  | v :: rest, s, items', t, hs, hv, h => by
    rw [copyItems] at h
    split at h
    · cases h
    · rename_i v' s₁ hcopy
      obtain ⟨⟨rest', t'⟩, hi, he⟩ := Option.map_eq_some_iff.mp h
      cases he
      obtain ⟨hv, hrest⟩ := List.forall_mem_cons.mp hv
      obtain ⟨first, within⟩ := copies_copyWith hc v s v' s₁ hs hv hcopy
      have hs₁ := C.inv hs first
      obtain ⟨more, others⟩ := copies_copyItems hc rest s₁ rest' t hs₁
        (fun v hv => C.val hs first (hrest v hv)) hi
      exact ⟨C.trans first more, List.forall_mem_cons.mpr ⟨C.val hs₁ more within, others⟩⟩

theorem copies_copyEntries (hc : C.Copies (fun s c => C.Val s (.object c)) copyObj) :
    ∀ entries s entries' t, C.Inv s → (∀ e ∈ entries, C.Val s e.2) →
      copyEntries copyObj entries s = some (entries', t) →
      C.Leads s t ∧ ∀ e ∈ entries', C.Val t e.2
  | [], s, entries', t, _, hv, h => by
    cases h
    exact ⟨C.refl s, hv⟩
  | (k, v) :: rest, s, entries', t, hs, hv, h => by
    rw [copyEntries] at h
    split at h
    · cases h
    · rename_i v' s₁ hcopy
      obtain ⟨⟨rest', t'⟩, hi, he⟩ := Option.map_eq_some_iff.mp h
      cases he
      obtain ⟨hv, hrest⟩ := List.forall_mem_cons.mp hv
      obtain ⟨first, within⟩ := copies_copyWith hc v s v' s₁ hs hv hcopy
      have hs₁ := C.inv hs first
      obtain ⟨more, others⟩ := copies_copyEntries hc rest s₁ rest' t hs₁
        (fun e he => C.val hs first (hrest e he)) hi
      exact ⟨C.trans first more, List.forall_mem_cons.mpr ⟨C.val hs₁ more within, others⟩⟩

end

theorem copies_copyInstance : ∀ depth, C.Copies (fun s c => C.Val s (.object c)) (copyInstance depth)
  | 0, c, s, c', t, _, _, h => by cases h
  | depth + 1, c, s, c', t, hs, hc, h =>
    copies_copyObject (copies_copyWith (copies_copyInstance depth)) c s c' t hs hc h

theorem copies_copy (depth : Nat) : C.Copies C.Val (copy depth) :=
  copies_copyWith (copies_copyInstance depth)

end Copying

/-- Copies in steps above `n`. -/
def copyingAbove (n : Nat) : Copying where
  Inv s := n ≤ s.graph.size
  Val _ _ := True
  Target _ c := n ≤ c
  Leads := Later n
  hereditary _ := Value.hereditary_true
  refl _ := .refl
  trans := .trans
  inv hs later := Nat.le_trans hs later.extends.contexts
  val _ _ _ := trivial
  target _ _ h := h
  val_of_target _ := trivial
  member _ _ _ := trivial
  addObject hs _ _ := ⟨.single ⟨_, Footprint.above_clean, .contextAdded _⟩, hs⟩
  declareFunc _ hc free := .single ⟨_, by rintro d ⟨⟩; exact hc, .funcDeclared free⟩
  bindNew _ hc _ free := .single ⟨_, by rintro d ⟨⟩; exact hc, .varDeclared free⟩
  recordMember name _ hc := .single ⟨_, by rintro d ⟨⟩; exact hc, .memberRecorded _ name⟩

/-- A copy leaves the contexts alone that were there. -/
theorem later_copy {s t : Store} {depth : Nat} {v v' : Value} (h : s.copy depth v = some (v', t)) :
    s.Later s.graph.size t :=
  ((copyingAbove s.graph.size).copies_copy depth v s v' t (Nat.le_refl _) trivial h).1

end TreeScript.Store
