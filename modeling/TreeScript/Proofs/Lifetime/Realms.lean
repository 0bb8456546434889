import TreeScript.Proofs.Lifetime.Ownership
import TreeScript.Proofs.Machine.Copy

/-!
# Realms

The realm of a World is the part of a store that belongs to the code of the World and of the modules
that it knows. Nothing leads out of a realm, and each of its contexts has its home in one of these
Worlds. So as long as the World of a realm is held, all homes of the realm are alive. A module that is
being imported has a realm of its own, apart from those around it, which it leaves alone; its realm
becomes part of that of the importer at the end, or of none.
-/
namespace TreeScript

variable {s t : Store} {c o v w : CtxId} {i : CellId} {f : Context → Context} {kind : ContextKind}

/-- A World, and a part of the store. -/
structure Realm extends Part where
  world : CtxId

namespace Realm

variable {r q : Realm}

/-- The realm is there, nothing leads out of it, and its contexts have their homes in Worlds that its
own World knows. -/
structure Stands (r : Realm) (s : Store) : Prop where
  contexts : ∀ c, r.Ctx c → c < s.graph.size
  cells : ∀ i, r.Cell i → i < s.cells.size
  closed : s.Closed r.Ctx r.Cell
  world : r.Ctx r.world
  isWorld : s.graph.isWorld r.world = true
  homes : ∀ c, r.Ctx c → ∃ w, s.graph.Knows r.world w ∧ s.graph.Home c w

/-- The context is alive, in the realm. -/
def Alive (r : Realm) (s : Store) (c : CtxId) : Prop := r.Ctx c ∧ s.graph.isLive c = true

/-- The cell is in the realm, and all that it names is firm. -/
def Sure (r : Realm) (s : Store) (i : CellId) : Prop :=
  r.Cell i ∧ (s.cell i).value.Within s.graph.Firm

/-- The realms have nothing in common. -/
structure Apart (r q : Realm) : Prop where
  contexts : ∀ c, r.Ctx c → ¬q.Ctx c
  cells : ∀ i, r.Cell i → ¬q.Cell i

/-- The realm with all that has come about in the meantime. -/
def upTo (r : Realm) (s t : Store) : Realm where
  Ctx c := r.Ctx c ∨ s.graph.size ≤ c ∧ c < t.graph.size
  Cell i := r.Cell i ∨ s.cells.size ≤ i ∧ i < t.cells.size
  world := r.world

theorem ctx_upTo (same : t.graph.size = s.graph.size) : (r.upTo s t).Ctx = r.Ctx := by
  funext c
  refine propext (or_iff_left fun h => ?_)
  exact Nat.not_lt.mpr h.1 (same ▸ h.2)

theorem cell_upTo (same : t.cells.size = s.cells.size) : (r.upTo s t).Cell = r.Cell := by
  funext i
  refine propext (or_iff_left fun h => ?_)
  exact Nat.not_lt.mpr h.1 (same ▸ h.2)

theorem upTo_eq (contexts : t.graph.size = s.graph.size) (cells : t.cells.size = s.cells.size) :
    r.upTo s t = r := by
  have ctx := ctx_upTo (r := r) contexts
  have cell := cell_upTo (r := r) cells
  obtain ⟨⟨_, _⟩, _⟩ := r
  exact congrArg₂ (fun ctx cell => Realm.mk ⟨ctx, cell⟩ _) ctx cell

theorem upTo_upTo {u : Store} (grown : s.Extends t) (more : t.Extends u) :
    (r.upTo s t).upTo t u = r.upTo s u := by
  have joined (a b d n : Nat) (hab : a ≤ b) (hbd : b ≤ d) :
      a ≤ n ∧ n < b ∨ b ≤ n ∧ n < d ↔ a ≤ n ∧ n < d := by omega
  simp only [upTo, mk.injEq, Part.mk.injEq, and_true]
  constructor
  · funext c
    exact propext (or_assoc.trans (or_congr_right (joined _ _ _ c grown.contexts more.contexts)))
  · funext i
    exact propext (or_assoc.trans (or_congr_right (joined _ _ _ i grown.cells more.cells)))

theorem Apart.upTo (h : q.Apart r) (stands : q.Stands s) (t : Store) : q.Apart (r.upTo s t) where
  contexts c hc := not_or.mpr ⟨h.contexts c hc, fun new =>
    Nat.not_lt.mpr new.1 (stands.contexts c hc)⟩
  cells i hi := not_or.mpr ⟨h.cells i hi, fun new => Nat.not_lt.mpr new.1 (stands.cells i hi)⟩

/-- The realm of a module that begins to run. -/
def ofModule (s : Store) : Realm := ⟨⟨(· = s.graph.size), fun _ => False⟩, s.graph.size⟩

/-- The realm with another one, whose World its own has come to know. -/
def join (r q : Realm) : Realm where
  Ctx c := r.Ctx c ∨ q.Ctx c
  Cell i := r.Cell i ∨ q.Cell i
  world := r.world

namespace Stands

theorem ctx_owner (h : r.Stands s) (hc : r.Ctx c) (owner : s.graph.recordedOwner? c = some o) :
    r.Ctx o := by
  obtain ⟨kind, hk, owner⟩ := Option.bind_eq_some_iff.mp owner
  exact (h.closed.of_kind? hc hk).1 o owner

theorem ctx_imported (h : r.Stands s) (hv : r.Ctx v) (imported : s.graph.Imports v w) : r.Ctx w := by
  obtain ⟨kind, hk, e, he, rfl⟩ := imported
  exact (h.closed.of_kind? hv hk).2 e he

/-- A World of the realm is one that the World of the realm knows. -/
theorem knows_of_isWorld (h : r.Stands s) (hw : r.Ctx w) (isWorld : s.graph.isWorld w = true) :
    s.graph.Knows r.world w := by
  obtain ⟨v, knows, home⟩ := h.homes w hw
  exact home.eq_of_isWorld isWorld ▸ knows

/-- While the store widens a realm stands as long as it is closed. -/
theorem widens (h : r.Stands s) (grown : s.Widens t) (closed : t.Closed r.Ctx r.Cell) :
    r.Stands t where
  contexts c hc := Nat.lt_of_lt_of_le (h.contexts c hc) grown.contexts
  cells i hi := Nat.lt_of_lt_of_le (h.cells i hi) grown.cells
  closed := closed
  world := h.world
  isWorld := (grown.isWorld_eq (h.contexts _ h.world)).trans h.isWorld
  homes c hc := by
    obtain ⟨w, knows, home⟩ := h.homes c hc
    exact ⟨w, knows.widens grown, home.extends grown.toExtends⟩

/-- A realm is left alone when a module comes about. -/
theorem addWorld (h : r.Stands s) (grown : s.Widens (s.addContext .emptyWorld).2) :
    r.Stands (s.addContext .emptyWorld).2 := by
  refine h.widens grown (h.closed.congr (fun c hc => ?_) fun _ _ => rfl)
  show (s.graph.add .emptyWorld).2.contents? c = _
  rw [Graph.contents?, Graph.context?_add_of_lt .emptyWorld (h.contexts c hc)]
  rfl

/-- When a World of a realm comes to know the World of another, the two realms become one. -/
theorem join (h : r.Stands s) (h' : q.Stands s) (hv : r.Ctx v) (isWorld : s.graph.isWorld v = true)
    (name : String) : (r.join q).Stands (s.modifyGraph (·.update v fun ctx =>
      { ctx with kind := Declaration.addModule name q.world ctx.kind })) := by
  let t := s.modifyGraph (·.update v fun ctx =>
    { ctx with kind := Declaration.addModule name q.world ctx.kind })
  have gentle := Context.gentle_addModule (c := v) name q.world
  have widens : s.Widens t := Store.widens_update gentle
  have closed := (h.closed.or h'.closed).update (c := v) (gentle.within _ _ (.inl hv)
    (List.forall_mem_singleton.mpr (.inr h'.world)) nofun)
  refine ⟨fun c hc => ?_, fun i hi => hi.elim (h.cells i) (h'.cells i), closed, .inl h.world,
    (widens.isWorld_eq (h.contexts _ h.world)).trans h.isWorld, fun c hc => ?_⟩
  · exact Nat.lt_of_lt_of_le (hc.elim (h.contexts c) (h'.contexts c)) widens.contexts
  · rcases hc with hc | hc
    · obtain ⟨w, knows, home⟩ := h.homes c hc
      exact ⟨w, knows.widens widens, home.extends widens.toExtends⟩
    · obtain ⟨w, knows, home⟩ := h'.homes c hc
      have known : t.graph.Knows r.world q.world :=
        ((h.knows_of_isWorld hv isWorld).widens widens).tail
          (Store.imports_addModule isWorld name q.world)
      exact ⟨w, known.trans (knows.widens widens), home.extends widens.toExtends⟩

end Stands

theorem stands_ofModule (s : Store) : (ofModule s).Stands (s.addContext .emptyWorld).2 where
  contexts := by
    rintro c rfl
    show s.graph.size < (s.graph.add .emptyWorld).2.size
    rw [Graph.size_add]
    exact Nat.lt_succ_self _
  cells _ h := h.elim
  closed := {
    contexts := by
      rintro c ctx rfl hctx
      obtain rfl : Context.fresh .emptyWorld = ctx :=
        Option.some.inj ((Graph.context?_add_self .emptyWorld).symm.trans hctx)
      refine Context.within_fresh (fun _ owner => ?_) rfl rfl
      cases owner
    values := fun _ h => h.elim }
  world := rfl
  isWorld := Graph.isWorld_add_self .emptyWorld
  homes := by
    rintro c rfl
    exact ⟨_, .refl, .world (Graph.isWorld_add_self .emptyWorld)⟩

end Realm

namespace Scene

/-- All that is held from outside the store. -/
def holds (s : Scene) : List Hold := s.held ++ s.outside.getD []

/-- The context is alive, and held from outside, by itself or as part of a value, unless nothing is
let go at all. -/
inductive Root (s : Scene) (c : CtxId) : Prop where
  | unknown (unknown : s.outside = none) (living : s.graph.isLive c = true)
  | context (held : .context c ∈ s.holds) (living : s.graph.isLive c = true)
  | value {v : Value} (held : .value v ∈ s.holds) (named : c ∈ v.contexts)
      (inner : s.graph.isWorld c = false) (living : s.graph.isLive c = true)

variable {s t : Scene} {r q : Realm}

theorem Root.living (h : s.Root c) : s.graph.isLive c = true := by
  cases h <;> assumption

/-- What was held is held as long as it is alive. -/
theorem Root.later (h : s.Root c) (outside : t.outside = s.outside) (holds : s.holds ⊆ t.holds)
    (grown : s.store.Extends t.store) (living : t.graph.isLive c = true) : t.Root c := by
  cases h with
  | unknown unknown => exact .unknown (outside.trans unknown) living
  | context held => exact .context (holds held) living
  | value held named inner was =>
    exact .value (holds held) named ((grown.isWorld_eq (Graph.lt_of_isLive was)).trans inner) living

end Scene

namespace Realm

variable {r q : Realm} {s t : Scene}

/-- The realm stands in a sound store, and its World is held. -/
structure Secure (r : Realm) (s : Scene) : Prop extends r.Stands s.store where
  rooted : s.Root r.world
  sound : s.store.Sound

/-- What is held of the realm: what is held from outside, the owners of that, and what it has
imported. -/
inductive Keeps (r : Realm) (s : Scene) : CtxId → Prop where
  | root {c : CtxId} (there : r.Ctx c) (root : s.Root c) : Keeps r s c
  | owner {c o : CtxId} (kept : Keeps r s c) (owner : s.graph.recordedOwner? c = some o) :
      Keeps r s o
  | imported {v w : CtxId} (kept : Keeps r s v) (imported : s.graph.Imports v w) : Keeps r s w

theorem Keeps.mono (h : r.Keeps s c) (contexts : ∀ c, r.Ctx c → q.Ctx c) (roots : ∀ c, s.Root c → t.Root c)
    (grown : s.store.Widens t.store) : q.Keeps t c := by
  induction h with
  | root there root => exact .root (contexts _ there) (roots _ root)
  | @owner c o kept owner ih =>
    obtain ⟨kind, hk, -⟩ := Option.bind_eq_some_iff.mp owner
    exact .owner ih ((grown.recordedOwner?_eq (Graph.lt_of_kind? hk)).trans owner)
  | imported kept imported ih => exact .imported ih (grown.imports _ _ imported)

theorem Keeps.ctx (h : r.Keeps s c) (stands : r.Stands s.store) : r.Ctx c := by
  induction h with
  | root there => exact there
  | owner _ owner ih => exact stands.ctx_owner ih owner
  | imported _ imported ih => exact stands.ctx_imported ih imported

/-- The owners of what is held are held. -/
theorem Keeps.of_mem_chain (hc : r.Keeps s c) {d : CtxId}
    (hd : d ∈ s.graph.chain c) : r.Keeps s d := by
  induction c using s.graph.owner_induction with
  | last c none =>
    rw [Graph.chain_of_none none, List.mem_singleton] at hd
    exact hd ▸ hc
  | owned c o owner ih =>
    rw [Graph.chain_of_some owner] at hd
    rcases List.mem_cons.mp hd with rfl | hd
    · exact hc
    · exact ih (.owner hc (Graph.owner?_eq_some.mp owner).1) hd

namespace Secure

theorem keeps_of_isWorld (h : r.Secure s) (hw : r.Ctx w) (isWorld : s.graph.isWorld w = true) :
    r.Keeps s w := by
  have knows := h.knows_of_isWorld hw isWorld
  clear hw isWorld
  induction knows with
  | refl => exact .root h.world h.rooted
  | tail _ imported ih => exact .imported ih imported

theorem living_of_isWorld (h : r.Secure s) (hw : r.Ctx w) (isWorld : s.graph.isWorld w = true) :
    s.graph.isLive w = true := by
  have knows := h.knows_of_isWorld hw isWorld
  clear hw isWorld
  induction knows with
  | refl => exact h.rooted.living
  | tail _ imported ih => exact h.sound.imports _ _ ih imported

theorem alive_of_firm (h : r.Secure s) (hc : r.Ctx c) (firm : s.graph.Firm c) :
    r.Alive s.store c :=
  ⟨hc, firm.elim id (h.living_of_isWorld hc)⟩

/-- What lives in the realm leads only to what lives there. -/
theorem closed_alive (h : r.Secure s) : s.store.Closed (r.Alive s.store) (r.Sure s.store) where
  contexts c ctx hc hctx := by
    have living : ctx.live = true := by
      have living := hc.2
      rw [Graph.isLive, hctx] at living
      exact living
    exact ((h.closed.contexts c ctx hc.1 hctx).and (h.sound.links c ctx hctx living)).mono
      (fun d hd => h.alive_of_firm hd.1 hd.2) fun i hi => hi
  values i hi d hd := h.alive_of_firm (h.closed.values i hi.1 d hd) (hi.2 d hd)

theorem living (h : r.Secure s) (hc : r.Keeps s c) : s.graph.isLive c = true := by
  induction hc with
  | root _ root => exact root.living
  | owner kept owner ih =>
    obtain ⟨kind, hk, owner⟩ := Option.bind_eq_some_iff.mp owner
    exact ((h.closed_alive.of_kind? ⟨kept.ctx h.toStands, ih⟩ hk).1 _ owner).2
  | imported _ imported ih => exact h.sound.imports _ _ ih imported

theorem alive (h : r.Secure s) (hc : r.Keeps s c) : r.Alive s.store c :=
  ⟨hc.ctx h.toStands, h.living hc⟩

/-- The chain of a context that lives ends in a World, and all of it is there. -/
theorem home (h : r.Secure s) (hc : r.Ctx c) : ∃ w, s.graph.Home c w ∧ r.Alive s.store w ∧
    s.graph.root c = w := by
  obtain ⟨w, knows, home⟩ := h.homes c hc
  have there : r.Ctx w := by
    clear home
    induction knows with
    | refl => exact h.world
    | tail _ imported ih => exact h.ctx_imported ih imported
  have living := h.living_of_isWorld there home.isWorld
  exact ⟨w, home, ⟨there, living⟩, home.root_eq living⟩

theorem isWorld_root (h : r.Secure s) (hc : r.Ctx c) : s.graph.isWorld (s.graph.root c) = true := by
  obtain ⟨w, home, -, rfl⟩ := h.home hc
  exact home.isWorld

end Secure

end Realm

end TreeScript
