import TreeScript.Proofs.Lifetime.Realms

/-!
# Custody

Code runs in the custody of the realm of its World. What it has got hold of is alive and belongs to
the realm; what it holds meanwhile, with the owners of that, stays alive whatever is let go. Custody
is kept up by all that code does to a store, and handed on when a module is imported.
-/
namespace TreeScript

variable {root : CtxId} {s t : Store} {c o v x : CtxId} {i : CellId} {f : Context → Context}
  {kind : ContextKind}

/-- A scene with the realm of the code that runs there and the realms of those that are importing it,
which are apart from its own. The realm of the World `root` is one of them. -/
structure Custody (root : CtxId) where
  scene : Scene
  realm : Realm
  outer : List Realm
  stands : ∀ r ∈ realm :: outer, r.Stands scene.store
  rooted : ∀ r ∈ realm :: outer, scene.Root r.world
  apart : ∀ r ∈ outer, r.Apart realm
  sound : scene.store.Sound
  belongs : scene.store.Belongs
  session : ∃ r ∈ realm :: outer, r.world = root

namespace Custody

variable {w w' w'' w₁ w₂ : Custody root} {r : Realm}

abbrev store (w : Custody root) : Store := w.scene.store

theorem secure (w : Custody root) (hr : r ∈ w.realm :: w.outer) : r.Secure w.scene :=
  ⟨w.stands r hr, w.rooted r hr, w.sound⟩

theorem secured (w : Custody root) : w.realm.Secure w.scene := w.secure List.mem_cons_self

/-- The second custody is the first one or later, with the same things held. -/
structure Next (w w' : Custody root) : Prop where
  outer : w'.outer = w.outer
  world : w'.realm.world = w.realm.world
  held : w'.scene.held = w.scene.held
  outside : w'.scene.outside = w.scene.outside
  contexts : ∀ c, w.realm.Ctx c → w'.realm.Ctx c
  cells : ∀ i, w.realm.Cell i → w'.realm.Cell i
  widens : w.store.Widens w'.store
  living : ∀ c, w.scene.Root c → w'.scene.graph.isLive c = true
  values : ∀ i, .cell i ∈ w.scene.holds →
    (w.store.cell i).value.Within w.scene.graph.Firm →
      (w'.store.cell i).value.Within w'.scene.graph.Firm

namespace Next

theorem refl (w : Custody root) : w.Next w :=
  ⟨rfl, rfl, rfl, rfl, fun _ => id, fun _ => id, .refl _, fun _ => Scene.Root.living,
    fun _ _ => id⟩

theorem holds (h : w.Next w') : w'.scene.holds = w.scene.holds := by
  rw [Scene.holds, Scene.holds, h.held, h.outside]

theorem rooted (h : w.Next w') (hc : w.scene.Root c) : w'.scene.Root c :=
  hc.later h.outside (by rw [h.holds]; exact List.Subset.refl _) h.widens.toExtends (h.living c hc)

theorem trans (h : w.Next w') (h' : w'.Next w'') : w.Next w'' where
  outer := h'.outer.trans h.outer
  world := h'.world.trans h.world
  held := h'.held.trans h.held
  outside := h'.outside.trans h.outside
  contexts c hc := h'.contexts c (h.contexts c hc)
  cells i hi := h'.cells i (h.cells i hi)
  widens := h.widens.trans h'.widens
  living c hc := h'.living c (h.rooted hc)
  values i held firm := h'.values i (h.holds ▸ held) (h.values i held firm)

theorem keeps (h : w.Next w') (hc : w.realm.Keeps w.scene c) : w'.realm.Keeps w'.scene c :=
  hc.mono h.contexts (fun _ => h.rooted) h.widens

end Next

/-- Custody may pass to the scene, with the realm. -/
structure Passes (w : Custody root) (t : Scene) (realm : Realm) : Prop where
  held : t.held = w.scene.held
  outside : t.outside = w.scene.outside
  world : realm.world = w.realm.world
  contexts : ∀ c, w.realm.Ctx c → realm.Ctx c
  cells : ∀ i, w.realm.Cell i → realm.Cell i
  widens : w.store.Widens t.store
  living : ∀ c, w.scene.Root c → t.graph.isLive c = true
  values : ∀ i, .cell i ∈ w.scene.holds →
    (w.store.cell i).value.Within w.scene.graph.Firm → (t.store.cell i).value.Within t.graph.Firm
  stands : ∀ r ∈ realm :: w.outer, r.Stands t.store
  apart : ∀ r ∈ w.outer, r.Apart realm
  sound : t.store.Sound
  belongs : t.store.Belongs

theorem Passes.next {t : Scene} (h : w.Passes t r) :
    ∃ w' : Custody root, w.Next w' ∧ w'.scene = t ∧ w'.realm = r := by
  have holds : w.scene.holds ⊆ t.holds := by
    rw [Scene.holds, Scene.holds, h.held, h.outside]
    exact List.Subset.refl _
  have rooted (q : Realm) (hq : w.scene.Root q.world) : t.Root q.world :=
    hq.later h.outside holds h.widens.toExtends (h.living _ hq)
  have mine : t.Root r.world := h.world ▸ rooted w.realm (w.rooted _ List.mem_cons_self)
  have session : ∃ q ∈ r :: w.outer, q.world = root := by
    obtain ⟨q, hq, same⟩ := w.session
    rcases List.mem_cons.mp hq with rfl | hq
    · exact ⟨r, List.mem_cons_self, h.world.trans same⟩
    · exact ⟨q, List.mem_cons_of_mem _ hq, same⟩
  exact ⟨⟨t, r, w.outer, h.stands, List.forall_mem_cons.mpr ⟨mine, fun q hq =>
      rooted q (w.rooted q (List.mem_cons_of_mem _ hq))⟩, h.apart, h.sound, h.belongs, session⟩,
    ⟨rfl, h.world, h.held, h.outside, h.contexts, h.cells, h.widens, h.living, h.values⟩, rfl, rfl⟩

/-- A later custody in which nothing has been let go and all that has come about is in the realm. -/
structure Grows (w w' : Custody root) : Prop extends Next w w' where
  realm : w'.realm = w.realm.upTo w.store w'.store
  alive : ∀ c, w.scene.graph.isLive c = true → w'.scene.graph.isLive c = true
  firm : ∀ i, (w.store.cell i).value.Within w.scene.graph.Firm →
    (w'.store.cell i).value.Within w'.scene.graph.Firm

namespace Grows

theorem refl (w : Custody root) : w.Grows w :=
  ⟨.refl w, (Realm.upTo_eq rfl rfl).symm, fun _ => id, fun _ => id⟩

theorem trans (h : w.Grows w') (h' : w'.Grows w'') : w.Grows w'' where
  toNext := h.toNext.trans h'.toNext
  realm := by
    rw [h'.realm, h.realm]
    exact Realm.upTo_upTo h.widens.toExtends h'.widens.toExtends
  alive c hc := h'.alive c (h.alive c hc)
  firm i hi := h'.firm i (h.firm i hi)

theorem alive_realm (h : w.Grows w') (hc : w.realm.Alive w.store c) :
    w'.realm.Alive w'.store c :=
  ⟨h.contexts c hc.1, h.alive c hc.2⟩

theorem sure_realm (h : w.Grows w') (hi : w.realm.Sure w.store i) : w'.realm.Sure w'.store i :=
  ⟨h.cells i hi.1, h.firm i hi.2⟩

end Grows

/-- Some grown custody has the store. -/
def Reaches (w : Custody root) (t : Store) : Prop :=
  ∃ w', w.Grows w' ∧ w'.scene = { w.scene with store := t }

theorem Reaches.refl (w : Custody root) : w.Reaches w.store := ⟨w, .refl w, rfl⟩

/-- Growing twice. -/
theorem Reaches.andThen {u : Store} (h : w.Reaches t)
    (more : ∀ w', w.Grows w' → w'.scene = { w.scene with store := t } → w'.Reaches u) :
    w.Reaches u := by
  obtain ⟨w', grows, same⟩ := h
  obtain ⟨w'', grows', same'⟩ := more w' grows same
  exact ⟨w'', grows.trans grows', by rw [same', same]⟩

/-- Building up the store, with nothing changed outside the realm. -/
theorem build (w : Custody root) (builds : w.store.Builds t)
    (closed : t.Closed (w.realm.upTo w.store t).Ctx (w.realm.upTo w.store t).Cell)
    (homes : ∀ c, w.store.graph.size ≤ c → c < t.graph.size →
      ∃ x, t.graph.Knows w.realm.world x ∧ t.graph.Home c x)
    (contexts : ∀ c < w.store.graph.size, ¬w.realm.Ctx c →
      t.graph.contents? c = w.store.graph.contents? c)
    (cells : ∀ i < w.store.cells.size, ¬w.realm.Cell i → t.cell i = w.store.cell i) :
    w.Reaches t := by
  have mine := w.stands w.realm List.mem_cons_self
  have widens := builds.toWidens
  have outer (r : Realm) (hr : r ∈ w.outer) : r.Stands t := by
    have theirs := w.stands r (List.mem_cons_of_mem _ hr)
    refine theirs.widens widens (theirs.closed.congr (fun c hc => ?_) fun i hi => ?_)
    · exact contexts c (theirs.contexts c hc) ((w.apart r hr).contexts c hc)
    · exact cells i (theirs.cells i hi) ((w.apart r hr).cells i hi)
  have realm : (w.realm.upTo w.store t).Stands t := by
    refine ⟨fun c hc => ?_, fun i hi => ?_, closed, .inl mine.world,
      (widens.isWorld_eq (mine.contexts _ mine.world)).trans mine.isWorld, fun c hc => ?_⟩
    · exact hc.elim (fun old => Nat.lt_of_lt_of_le (mine.contexts c old) widens.contexts) And.right
    · exact hi.elim (fun old => Nat.lt_of_lt_of_le (mine.cells i old) widens.cells) And.right
    · rcases hc with old | ⟨new, there⟩
      · obtain ⟨x, knows, home⟩ := mine.homes c old
        exact ⟨x, knows.widens widens, home.extends widens.toExtends⟩
      · exact homes c new there
  obtain ⟨w', next, same, owned⟩ :=
    (show w.Passes { w.scene with store := t } (w.realm.upTo w.store t) from {
      held := rfl
      outside := rfl
      world := rfl
      contexts := fun _ => .inl
      cells := fun _ => .inl
      widens := widens
      living := fun c h => builds.living c h.living
      values := fun i _ => builds.values i
      stands := List.forall_mem_cons.mpr ⟨realm, outer⟩
      apart := fun r hr => (w.apart r hr).upTo (w.stands r (List.mem_cons_of_mem _ hr)) t
      sound := builds.sound
      belongs := builds.belongs }).next
  have store : w'.store = t := congrArg Scene.store same
  subst store
  exact ⟨w', ⟨next, owned, builds.living, builds.values⟩, same⟩

/-- A gentle change of a context of the realm. -/
theorem update (w : Custody root) {bound : List CellId} (hc : w.realm.Ctx c)
    (gentle : Context.Gentle c [] bound f) (sure : ∀ i ∈ bound, w.realm.Sure w.store i) :
    w.Reaches (w.store.modifyGraph (·.update c f)) := by
  have mine := w.stands w.realm List.mem_cons_self
  have size : (w.store.modifyGraph (·.update c f)).graph.size = w.store.graph.size :=
    Graph.size_update f
  refine w.build (.update w.sound w.belongs gentle nofun fun i hi => (sure i hi).2) ?_ ?_ ?_
    fun _ _ _ => rfl
  · rw [Realm.upTo_eq size rfl]
    exact mine.closed.update (gentle.within _ _ hc nofun fun i hi => (sure i hi).1)
  · exact fun d new there => absurd (size ▸ there) (Nat.not_lt.mpr new)
  · intro d _ hd
    have other : c ≠ d := fun same => hd (same ▸ hc)
    exact Graph.contents?_update_of_ne f other

/-- A context comes about whose owner is alive, in the realm. -/
theorem addContext (w : Custody root) (owner : kind.owner? = some o)
    (bare : kind.imports = [] ∧ kind.arguments?.getD [] = [])
    (ho : w.realm.Alive w.store o) : w.Reaches (w.store.addContext kind).2 := by
  have mine := w.stands w.realm List.mem_cons_self
  have size : (w.store.addContext kind).2.graph.size = w.store.graph.size + 1 := Graph.size_add kind
  have owned {o' : CtxId} (h : kind.owner? = some o') : o' = o := Option.some.inj (h.symm.trans owner)
  have builds : w.store.Builds (w.store.addContext kind).2 :=
    .addContext w.sound w.belongs (fun o' h => owned h ▸ .inl ho.2) bare
  refine w.build builds ?_ ?_ ?_ fun _ _ _ => rfl
  · have cells : (w.store.addContext kind).2.cells.size = w.store.cells.size := rfl
    rw [Realm.cell_upTo cells]
    refine mine.closed.addContext (fun _ => .inl) (fun c there hc => ?_) ?_
    · exact hc.resolve_right fun new => Nat.not_lt.mpr new.1 there
    · exact Context.within_fresh (fun o' h => .inl (owned h ▸ ho.1)) bare.1 bare.2
  · intro c new there
    rw [size] at there
    obtain rfl : c = w.store.graph.size := Nat.le_antisymm (Nat.lt_succ_iff.mp there) new
    obtain ⟨x, knows, home⟩ := mine.homes o ho.1
    refine ⟨x, knows.widens builds.toWidens, .owned ?_ (mine.contexts o ho.1)
      (home.extends builds.toExtends)⟩
    show ((w.store.graph.add kind).2.kind? _).bind _ = _
    rw [Graph.kind?_add_self]
    exact owner
  · intro d hd _
    show (w.store.graph.add kind).2.contents? d = _
    rw [Graph.contents?, Graph.context?_add_of_lt kind hd]
    rfl

theorem firm_of_alive {v : Value} (hv : v.Within (w.realm.Alive w.store)) :
    v.Within w.scene.graph.Firm := hv.mono fun _ hc => .inl hc.2

theorem addCell (w : Custody root) {cell : Cell} (hv : cell.value.Within (w.realm.Alive w.store)) :
    w.Reaches (w.store.addCell cell).2 := by
  have mine := w.stands w.realm List.mem_cons_self
  refine w.build (.addCell w.sound w.belongs (firm_of_alive hv)) ?_
    (fun c new there => absurd there (Nat.not_lt.mpr new)) (fun _ _ _ => rfl)
    fun i hi _ => Store.cell_addCell_of_lt cell hi
  have contexts : (w.store.addCell cell).2.graph.size = w.store.graph.size := rfl
  rw [Realm.ctx_upTo contexts]
  refine mine.closed.addCell (fun _ => .inl) (fun i other hi => hi.resolve_right fun new => ?_)
    (hv.mono fun _ hc => hc.1)
  have there := new.2
  rw [Store.addCell, Array.size_push] at there
  exact other (Nat.le_antisymm (Nat.lt_succ_iff.mp there) new.1)

theorem setValue (w : Custody root) {v : Value} (hi : w.realm.Cell i)
    (hv : v.Within (w.realm.Alive w.store)) : w.Reaches (w.store.setValue i v) := by
  have mine := w.stands w.realm List.mem_cons_self
  have contexts : (w.store.setValue i v).graph.size = w.store.graph.size := rfl
  have cells : (w.store.setValue i v).cells.size = w.store.cells.size := by simp [Store.setValue]
  refine w.build (.setValue w.sound w.belongs i (firm_of_alive hv)) ?_
    (fun c new there => absurd there (Nat.not_lt.mpr new)) (fun _ _ _ => rfl) fun j _ hj => ?_
  · rw [Realm.upTo_eq contexts cells]
    exact mine.closed.setValue (hv.mono fun _ hc => hc.1)
  · exact Store.cell_setValue_of_ne v fun same => hj (same ▸ hi)

theorem makeClosure (w : Custody root) :
    w.Reaches { w.store with nextClosure := w.store.nextClosure + 1 } := by
  have mine := w.stands w.realm List.mem_cons_self
  let t : Store := { w.store with nextClosure := w.store.nextClosure + 1 }
  have contexts : t.graph.size = w.store.graph.size := rfl
  have cells : t.cells.size = w.store.cells.size := rfl
  refine w.build (t := t) (.makeClosure w.sound w.belongs) ?_
    (fun c new there => absurd there (Nat.not_lt.mpr new)) (fun _ _ _ => rfl) fun _ _ _ => rfl
  rw [Realm.upTo_eq contexts cells]
  exact ⟨mine.closed.contexts, mine.closed.values⟩

/-- A context that has come about lives in the realm. -/
theorem Grows.alive_new (grows : w.Grows w') (added : w'.store = (w.store.addContext kind).2) :
    w'.realm.Alive w'.store w.store.graph.size := by
  rw [grows.realm, added]
  refine ⟨.inr ⟨Nat.le_refl _, ?_⟩, Graph.isLive_add_self kind⟩
  show _ < (w.store.graph.add kind).2.size
  rw [Graph.size_add]
  exact Nat.lt_succ_self _

/-- A cell that has come about is in the realm. -/
theorem Grows.sure_new {cell : Cell} (grows : w.Grows w')
    (added : w'.store = (w.store.addCell cell).2) (hv : cell.value.Within (w.realm.Alive w.store)) :
    w'.realm.Sure w'.store w.store.cells.size := by
  rw [grows.realm, added]
  refine ⟨.inr ⟨Nat.le_refl _, by simp [Store.addCell]⟩, ?_⟩
  rw [Store.cell_addCell_self]
  exact firm_of_alive hv

theorem bindNew (w : Custody root) {cell : Cell} (hc : w.realm.Ctx c)
    (hv : cell.value.Within (w.realm.Alive w.store)) : w.Reaches (w.store.bindNew c cell) := by
  refine (w.addCell hv).andThen fun w' grows same => ?_
  have added : w'.store = (w.store.addCell cell).2 := congrArg Scene.store same
  have bound := w'.update (grows.contexts c hc)
    (Context.gentle_bindVar cell.name w.store.cells.size)
    (List.forall_mem_singleton.mpr (grows.sure_new added hv))
  rw [added] at bound
  exact bound

/-- Custody is kept of copies. -/
def copying (w : Custody root) : Store.Copying where
  Inv s := ∃ w' : Custody root, w.Grows w' ∧ w'.scene = { w.scene with store := s }
  Val s v := v.Within ((w.realm.upTo w.store s).Alive s)
  Target s c := (w.realm.upTo w.store s).Alive s c
  Leads s t := ∀ w' : Custody root, w.Grows w' → w'.scene = { w.scene with store := s } →
    w'.Reaches t
  hereditary _ := inferInstance
  refl s w' _ same := by
    obtain rfl : w'.store = s := congrArg Scene.store same
    exact .refl w'
  trans h h' w' grows same := (h w' grows same).andThen fun w'' grows' same' =>
    h' w'' (grows.trans grows') (by rw [same', same])
  inv := by
    rintro s t ⟨w', grows, same⟩ leads
    obtain ⟨w'', grows', same'⟩ := leads w' grows same
    exact ⟨w'', grows.trans grows', by rw [same', same]⟩
  val := by
    rintro s t v ⟨w', grows, same⟩ leads hv
    obtain ⟨w'', grows', same'⟩ := leads w' grows same
    obtain rfl : w'.store = s := congrArg Scene.store same
    obtain rfl : w''.store = t := congrArg Scene.store same'
    rw [← grows.realm] at hv
    rw [← (grows.trans grows').realm]
    exact hv.mono fun _ => grows'.alive_realm
  target := by
    rintro s t c ⟨w', grows, same⟩ leads hc
    obtain ⟨w'', grows', same'⟩ := leads w' grows same
    obtain rfl : w'.store = s := congrArg Scene.store same
    obtain rfl : w''.store = t := congrArg Scene.store same'
    rw [← grows.realm] at hc
    rw [← (grows.trans grows').realm]
    exact grows'.alive_realm hc
  val_of_target := Value.within_object.mpr
  member := by
    rintro s c name cell ⟨w', grows, same⟩ hc found
    obtain rfl : w'.store = s := congrArg Scene.store same
    rw [← grows.realm] at hc ⊢
    obtain ⟨i, hi, hcell⟩ := Option.bind_eq_some_iff.mp found
    have closed := w'.secured.closed_alive
    have within := closed.values i (closed.localVar? (Value.within_object.mp hc) hi)
    rwa [Store.cell, hcell] at within
  addObject := by
    rintro s c owner decl given arguments members ⟨w', grows, same⟩ hc hk
    obtain rfl : w'.store = s := congrArg Scene.store same
    rw [← grows.realm] at hc
    have ho := (w'.secured.closed_alive.of_kind? (Value.within_object.mp hc) hk).1 owner rfl
    refine ⟨fun w'' grows'' same'' => ?_, ?_, ?_⟩
    · have store : w''.store = w'.store := (congrArg Scene.store same'' :)
      have realm : w''.realm = w'.realm := by rw [grows''.realm, grows.realm, store]
      rw [← store]
      exact w''.addContext rfl ⟨rfl, rfl⟩ (by rw [realm, store]; exact ho)
    · refine .inr ⟨grows.widens.contexts, ?_⟩
      show _ < (w'.store.graph.add _).2.size
      rw [Graph.size_add]
      exact Nat.lt_succ_self _
    · exact Graph.isLive_add_self _
  declareFunc := by
    rintro s c decl - hc - w' grows same
    obtain rfl : w'.store = s := congrArg Scene.store same
    rw [← grows.realm] at hc
    exact w'.update hc.1 (Context.gentle_bindFunc decl) nofun
  bindNew := by
    rintro s c cell - hc hv - w' grows same
    obtain rfl : w'.store = s := congrArg Scene.store same
    rw [← grows.realm] at hc hv
    exact w'.bindNew hc.1 hv
  recordMember := by
    rintro s c name - hc w' grows same
    obtain rfl : w'.store = s := congrArg Scene.store same
    rw [← grows.realm] at hc
    exact w'.update hc.1 (Context.gentle_recordMember name) nofun

/-- A copy names only what is alive in the realm then. -/
theorem copy (w : Custody root) {depth : Nat} {v v' : Value}
    (hv : v.Within (w.realm.Alive w.store)) (copied : w.store.copy depth v = some (v', t)) :
    ∃ w', w.Grows w' ∧ w'.scene = { w.scene with store := t } ∧
      v'.Within (w'.realm.Alive w'.store) := by
  have begins : (w.copying).Val w.store v := by
    show v.Within ((w.realm.upTo w.store w.store).Alive w.store)
    rw [Realm.upTo_eq rfl rfl]
    exact hv
  obtain ⟨leads, within⟩ :=
    w.copying.copies_copy depth v w.store v' t ⟨w, .refl w, rfl⟩ begins copied
  obtain ⟨w', grows, same⟩ := leads w (.refl w) rfl
  obtain rfl : w'.store = t := congrArg Scene.store same
  refine ⟨w', grows, same, ?_⟩
  rw [grows.realm]
  exact within

theorem release (w : Custody root) {outside : List Hold} (known : w.scene.outside = some outside) :
    ∃ w' : Custody root, w.Next w' ∧ w'.scene =
      { w.scene with store := w.store.release (w.scene.held ++ outside) } := by
  let t := w.store.release (w.scene.held ++ outside)
  have holds : w.scene.holds = w.scene.held ++ outside := by
    rw [Scene.holds, known]
    rfl
  have widens : w.store.Widens t := Store.widens_release w.store _
  have living (c : CtxId) (h : w.scene.Root c) : t.graph.isLive c = true := by
    cases h with
    | unknown unknown => cases unknown.symm.trans known
    | context held living =>
      exact Store.isLive_release_of_mem (holds ▸ held) List.mem_cons_self living
    | @value v held named inner living =>
      have mem : c ∈ Hold.contexts w.store (.value v) := Value.mem_holds inner v named
      exact Store.isLive_release_of_mem (holds ▸ held) mem living
  have values (i : CellId) (held : .cell i ∈ w.scene.holds)
      (firm : (w.store.cell i).value.Within w.scene.graph.Firm) :
      (t.cell i).value.Within t.graph.Firm := by
    intro c hc
    refine (firm c hc).elim (fun living => ?_) fun world => .inr ?_
    · cases inner : w.scene.graph.isWorld c with
      | true => exact .inr ((Store.isWorld_release w.store _).symm ▸ inner)
      | false =>
        have mem : c ∈ Hold.contexts w.store (.cell i) := Value.mem_holds inner _ hc
        exact .inl (Store.isLive_release_of_mem (holds ▸ held) mem living)
    · exact (Store.isWorld_release w.store _).symm ▸ world
  obtain ⟨w', next, same, -⟩ := (show w.Passes { w.scene with store := t } w.realm from {
    held := rfl
    outside := rfl
    world := rfl
    contexts := fun _ => id
    cells := fun _ => id
    widens := widens
    living := living
    values := values
    stands := fun r hr => (w.stands r hr).widens widens ((w.stands r hr).closed.release _)
    apart := w.apart
    sound := w.sound.release w.belongs _
    belongs := w.belongs.release _ }).next
  exact ⟨w', next, same⟩

end Custody

end TreeScript
