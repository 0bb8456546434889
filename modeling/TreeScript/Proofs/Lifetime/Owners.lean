import TreeScript.Proofs.Lifetime.Keeping
import TreeScript.Proofs.Lifetime.Worlds

/-!
# Owners in live sessions

A host holds the World of a session, and values that it has got from there. Whatever can be got to from
these, and from what work in progress holds, has all of its owners, and they lead to a World that is
alive. So no code of a session ever finds that its World is gone.
-/
namespace TreeScript

variable {s t : Store} {c d o v w root : CtxId} {i : CellId} {m : Machine} {α : Type}

/-- A context leads to its owner, to the modules that it has imported, to the owners of the functions
that are stored in it and to what the values of its variables name. -/
inductive Store.Leads (s : Store) : CtxId → CtxId → Prop where
  | owner {c o : CtxId} (owner : s.graph.recordedOwner? c = some o) : Leads s c o
  | imported {v w : CtxId} (imported : s.graph.Imports v w) : Leads s v w
  | func {c : CtxId} {ctx : Context} {frame : List (String × Func)} {e : String × Func}
      (there : s.graph.context? c = some ctx) (hf : frame ∈ ctx.funcs.frames) (he : e ∈ frame) :
      Leads s c e.2.owner
  | named {c d : CtxId} {ctx : Context} {i : CellId} (there : s.graph.context? c = some ctx)
      (bound : i ∈ ctx.cells) (named : d ∈ (s.cell i).value.contexts) : Leads s c d

/-- A context that something leads to, from one of the roots on. -/
def Store.GetsTo (s : Store) (roots : CtxId → Prop) (c : CtxId) : Prop :=
  ∃ root, roots root ∧ Relation.ReflTransGen s.Leads root c

theorem Store.getsTo_root {roots : CtxId → Prop} (hc : roots c) : s.GetsTo roots c := ⟨c, hc, .refl⟩

theorem Context.Within.cells {P : CtxId → Prop} {Q : CellId → Prop} {ctx : Context}
    (h : ctx.Within P Q) (hi : i ∈ ctx.cells) : Q i := by
  have bound (hi : i ∈ ctx.vars.frames.flatMap (·.map Prod.snd)) : Q i := by
    obtain ⟨frame, hf, hi⟩ := List.mem_flatMap.mp hi
    obtain ⟨e, he, rfl⟩ := List.mem_map.mp hi
    exact h.vars frame hf e he
  rw [Context.cells] at hi
  split at hi
  · rename_i owner decl given arguments members hk
    rcases List.mem_append.mp hi with hi | hi
    · exact bound hi
    · obtain ⟨e, he, rfl⟩ := List.mem_map.mp hi
      exact h.arguments arguments (by rw [hk]; rfl) e he
  · exact bound hi

namespace Store.Closed

variable {P : CtxId → Prop} {Q : CellId → Prop}

theorem leads (closed : s.Closed P Q) (hc : P c) (h : s.Leads c d) : P d := by
  cases h with
  | owner owner =>
    obtain ⟨kind, hk, owner⟩ := Option.bind_eq_some_iff.mp owner
    exact (closed.of_kind? hc hk).1 d owner
  | imported imported =>
    obtain ⟨kind, hk, e, he, rfl⟩ := imported
    exact (closed.of_kind? hc hk).2 e he
  | func there hf he => exact (closed.contexts c _ hc there).funcs _ hf _ he
  | named there bound named =>
    exact closed.values _ ((closed.contexts c _ hc there).cells bound) d named

/-- Nothing leads out of a closed part. -/
theorem follows (closed : s.Closed P Q) (hc : P c) (h : Relation.ReflTransGen s.Leads c d) : P d := by
  induction h with
  | refl => exact hc
  | tail _ step ih => exact closed.leads ih step

end Store.Closed

/-- The context has its owners: they are older one after the other, none is lost, all are alive, and
the last is a World. It is the owner of the functions that are stored in it. -/
structure Store.Founded (s : Store) (c : CtxId) : Prop where
  home : s.graph.Home c (s.graph.root c)
  living : ∀ d ∈ s.graph.chain c, s.graph.isLive d = true
  followed : ∀ d ∈ s.graph.chain c, ∀ o, s.graph.recordedOwner? d = some o →
    s.graph.owner? d = some o ∧ o < d
  funcs : ∀ ctx, s.graph.context? c = some ctx → ∀ frame ∈ ctx.funcs.frames, ∀ e ∈ frame,
    e.2.owner = c

theorem Store.Founded.isWorld_root (h : s.Founded c) :
    s.graph.isWorld (s.graph.root c) = true ∧ s.graph.isLive (s.graph.root c) = true :=
  ⟨h.home.isWorld, h.living _ (Graph.root_mem_chain _ c)⟩

theorem Realm.Secure.founded {r : Realm} {s : Scene} (h : r.Secure s) (belongs : s.store.Belongs)
    (hc : r.Alive s.store c) : s.store.Founded c where
  home := by
    obtain ⟨w, home, -, rfl⟩ := h.home hc.1
    exact home
  living d hd := (h.closed_alive.mem_chain hc hd).2
  followed d hd o owner := by
    obtain ⟨w, home, alive, -⟩ := h.home (h.closed_alive.mem_chain hc hd).1
    have there := (home.owner?_eq alive.2 owner).1
    exact ⟨there, (Graph.owner?_eq_some.mp there).2.1⟩
  funcs ctx hctx frame hf e he := belongs c ctx hctx frame hf e he

/-- The contexts that what is held names. -/
def Hold.names (s : Store) : Hold → List CtxId
  | .context c => [c]
  | .cell i => (s.cell i).value.contexts
  | .value v => v.contexts

/-- What work in a World begins from when its code runs in the context: these two, and what is held. -/
def Scene.Begins (s : Scene) (world c d : CtxId) : Prop :=
  d = world ∨ d = c ∨ ∃ hold ∈ s.holds, d ∈ hold.names s.store

namespace Custody

variable {w : Custody root} {r : Realm}

theorem alive_of_lies (hr : r ∈ w.realm :: w.outer) {hold : Hold} (lies : hold.Lies r w.store)
    (hd : d ∈ hold.names w.store) : r.Alive w.store d := by
  cases hold with
  | context c => exact List.mem_singleton.mp hd ▸ lies
  | cell i => exact (w.secure hr).closed_alive.values i lies d hd
  | value v => exact lies d hd

/-- Whatever work in progress can get to has its owners. -/
theorem founded (honest : w.Honest) (hc : w.realm.Keeps w.scene c)
    (h : w.store.GetsTo (w.scene.Begins root c) d) : w.store.Founded d := by
  obtain ⟨b, begins, ways⟩ := h
  have alive : ∃ r ∈ w.realm :: w.outer, r.Alive w.store b := by
    rcases begins with rfl | rfl | ⟨hold, held, named⟩
    · obtain ⟨r, hr, rfl⟩ := w.session
      exact ⟨r, hr, (w.stands r hr).world, (w.rooted r hr).living⟩
    · exact ⟨_, List.mem_cons_self, w.secured.alive hc⟩
    · obtain ⟨r, hr, lies⟩ := honest hold held
      exact ⟨r, hr, alive_of_lies hr lies named⟩
  obtain ⟨r, hr, alive⟩ := alive
  exact (w.secure hr).founded w.belongs ((w.secure hr).closed_alive.follows alive ways)

end Custody

/-- The fault is one that the loader may refuse an import with. -/
def Config.Refuses (config : Config) (fault : Fault) : Prop :=
  ∃ loader ∈ config.loader, ∃ tree path, loader tree path = .error fault

namespace Session

/-- The host can get to the context, from the World of the session or from a value in hand. -/
def GetsTo (s : Session) (hand : List Value) : CtxId → Prop :=
  s.machine.store.GetsTo fun c => c = s.world ∨ ∃ v ∈ hand, c ∈ v.contexts

/-- If it is known what is held from outside, it is the World of the session and the values in
hand. -/
def Tells (s : Session) (hand : List Value) : Prop :=
  s.machine.outside = none ∨ s.machine.outside = some (.context s.world :: hand.map .value)

/-- The session after the host has told what it holds. -/
def told (s : Session) (hand : List Value) : Session :=
  { s with machine :=
    { s.machine with outside := some (.context s.world :: hand.map .value) } }

theorem tells_told (s : Session) (hand : List Value) : (s.told hand).Tells hand := .inr rfl

/-- A session that a host has started and used, with the values that he has in hand: such as the
session has given him, and any others that name only what he can get to. -/
inductive Hosts (config : Config) (fuel : Nat) : Session → List Value → Prop where
  | starts (disk : Files.Disk) (output : Output) (input : List String) (limit : Option Nat) :
      Hosts config fuel (.start config fuel (.start disk output input limit)) []
  | uses {s t : Session} {hand : List Value} (hosts : Hosts config fuel s hand)
      (tells : s.Tells hand)
      (step : StepIf (fun s work => ∀ v ∈ work.values, v.Within (s.GetsTo hand)) s t) :
      Hosts config fuel t hand
  | line {s : Session} {hand : List Value} {stmt : Stmt} {v : Value} (hosts : Hosts config fuel s hand)
      (tells : s.Tells hand) (given : (s.runLine stmt).1 = .value v) :
      Hosts config fuel (s.runLine stmt).2 (v :: hand)
  | callback {s : Session} {hand : List Value} {closure : Closure} {args : List Value} {span : Span}
      {v : Value} {m : Machine} (hosts : Hosts config fuel s hand) (tells : s.Tells hand)
      (reach : ∀ v ∈ .closure closure :: args, v.Within (s.GetsTo hand))
      (given : Run.closure s.config s.fuel closure args span s.machine = .ok v m) :
      Hosts config fuel { s with machine := m } (v :: hand)
  | takes {s : Session} {hand : List Value} {v : Value} (hosts : Hosts config fuel s hand)
      (reach : v.Within (s.GetsTo hand)) : Hosts config fuel s (v :: hand)
  | drops {s : Session} {hand less : List Value} (hosts : Hosts config fuel s hand)
      (sub : less ⊆ hand) : Hosts config fuel s less
  | letsGo {s : Session} {hand : List Value} {m : Machine} (hosts : Hosts config fuel s hand)
      (tells : s.Tells hand) (letsGo : s.machine.scene.LetsGo m.scene) :
      Hosts config fuel { s with machine := m } hand
  | elsewhere {s : Session} {hand : List Value} {m : Machine} (hosts : Hosts config fuel s hand)
      (store : m.store = s.machine.store) (held : m.held = s.machine.held) :
      Hosts config fuel { s with machine := m } hand

/-- The World of the session is alive in a realm of its own, and so is what the values in hand
name. -/
structure Tended (s : Session) (hand : List Value) (r : Realm) : Prop where
  stands : r.Stands s.machine.store
  world : r.world = s.world
  living : s.machine.store.graph.isLive s.world = true
  sound : s.machine.store.Sound
  belongs : s.machine.store.Belongs
  held : s.machine.held = []
  hand : ∀ v ∈ hand, v.Within (r.Alive s.machine.store)

namespace Tended

variable {s t : Session} {hand : List Value} {r : Realm} {work : Work}

theorem start (config : Config) (fuel : Nat) (disk : Files.Disk) (output : Output)
    (input : List String) (limit : Option Nat) :
    (Session.start config fuel (.start disk output input limit)).Tended []
      (.ofModule Store.empty) where
  stands := Realm.stands_ofModule .empty
  world := rfl
  living := rfl
  sound := (Store.Builds.addWorld .empty .empty).sound
  belongs := Store.Belongs.empty.addContext _
  held := rfl
  hand := nofun

theorem of_same (h : s.Tended hand r) (world : t.world = s.world)
    (store : t.machine.store = s.machine.store) (held : t.machine.held = s.machine.held) :
    t.Tended hand r where
  stands := store ▸ h.stands
  world := h.world.trans world.symm
  living := by rw [store, world]; exact h.living
  sound := store ▸ h.sound
  belongs := store ▸ h.belongs
  held := held.trans h.held
  hand := store ▸ h.hand

theorem secure (h : s.Tended hand r) : r.Secure ⟨s.machine.store, [], none⟩ where
  toStands := h.stands
  rooted := .unknown rfl (h.world ▸ h.living)
  sound := h.sound

theorem alive_world (h : s.Tended hand r) : r.Alive s.machine.store s.world := by
  rw [← h.world]
  exact ⟨h.stands.world, h.world ▸ h.living⟩

/-- The host gets to nothing but what is alive in the realm. -/
theorem alive (h : s.Tended hand r) (hc : s.GetsTo hand c) : r.Alive s.machine.store c := by
  obtain ⟨b, begins, ways⟩ := hc
  refine h.secure.closed_alive.follows ?_ ways
  rcases begins with rfl | ⟨v, hv, named⟩
  · exact h.alive_world
  · exact h.hand v hv b named

theorem founded (h : s.Tended hand r) (hc : s.GetsTo hand c) : s.machine.store.Founded c :=
  h.secure.founded h.belongs (h.alive hc)

theorem rooted (h : s.Tended hand r) (tells : s.Tells hand) : s.machine.scene.Root s.world := by
  rcases tells with unknown | known
  · exact .unknown unknown h.living
  · refine .context ?_ h.living
    show _ ∈ s.machine.held ++ s.machine.outside.getD []
    rw [known]
    exact List.mem_append_right _ List.mem_cons_self

/-- Work in the session runs in the custody of the realm. -/
def custody (h : s.Tended hand r) (tells : s.Tells hand) : Custody s.world where
  scene := s.machine.scene
  realm := r
  outer := []
  stands := List.forall_mem_singleton.mpr h.stands
  rooted := List.forall_mem_singleton.mpr (h.world.symm ▸ h.rooted tells)
  apart := nofun
  sound := h.sound
  belongs := h.belongs
  session := ⟨r, List.mem_cons_self, h.world⟩

variable (h : s.Tended hand r) (tells : s.Tells hand)
include h tells

theorem honest : (h.custody tells).Honest := by
  intro hold held
  refine ⟨r, List.mem_cons_self, ?_⟩
  change hold ∈ s.machine.held ++ s.machine.outside.getD [] at held
  rw [h.held, List.nil_append] at held
  rcases id tells with unknown | known
  · rw [unknown] at held
    cases held
  · rw [known] at held
    rcases List.mem_cons.mp held with rfl | held
    · exact h.alive_world
    · obtain ⟨v, hv, rfl⟩ := List.mem_map.mp held
      exact h.hand v hv

/-- The values in hand are held. -/
theorem keeps {v : Value} (hv : v ∈ hand) :
    v.Within ((h.custody tells).realm.Keeps (h.custody tells).scene) := by
  rcases id tells with unknown | known
  · exact fun c hc => .root (h.hand v hv c hc).1 (.unknown unknown (h.hand v hv c hc).2)
  · refine Custody.keeps_of_mem ?_ (h.hand v hv)
    show _ ∈ s.machine.held ++ s.machine.outside.getD []
    rw [known]
    exact List.mem_append_right _ (List.mem_cons_of_mem _ (List.mem_map_of_mem hv))

theorem keeps_world : (h.custody tells).realm.Keeps (h.custody tells).scene s.world :=
  .root h.alive_world.1 (h.rooted tells)

/-- What a later custody is of is tended. -/
theorem later {w' : Custody s.world} (next : (h.custody tells).Next w') (world : t.world = s.world)
    (same : t.machine.scene = w'.scene) : t.Tended hand w'.realm := by
  have store : t.machine.store = w'.store := congrArg Scene.store same
  have held : t.machine.held = [] :=
    (congrArg Scene.held same).trans (next.held.trans h.held)
  have home : w'.realm.world = t.world := next.world.trans (h.world.trans world.symm)
  refine ⟨store ▸ w'.secured.toStands, home, ?_, store ▸ w'.sound, store ▸ w'.belongs, held,
    fun v hv c hc => ?_⟩
  · rw [store, ← home]
    exact w'.secured.rooted.living
  · rw [store]
    exact w'.secured.alive (next.keeps (h.keeps tells hv c hc))

variable {f : Footprint} {kept : List CtxId} {names : Names} {ν : α → Names}
  {run : Evaluator → Run α}

theorem begins (own : ∀ c ∈ kept, c = s.world) (fits : names.Fit (h.custody tells).grasp)
    (raises : Fault → Prop) : (Custody.upkeep s.world raises).Begins (h.custody tells) kept names s.machine where
  scene := rfl
  kept c hc := own c hc ▸ h.keeps_world tells
  fits := fits

/-- A run in the session ends in custody, and raises no stray fault of its own. -/
theorem runs (tracked : Run.Tracked f kept names ν run) (own : ∀ c ∈ kept, c = s.world)
    (fits : names.Fit (h.custody tells).grasp) :
    ∃ w', (h.custody tells).Next w' ∧ (Custody.worlds s.world s.config.Refuses).Ended w' ν
      (run (evaluator s.config s.fuel) s.machine) :=
  Upkeep.ends_of_tracked (U := Custody.upkeep s.world s.config.Refuses) tracked
    (fun loader hl tree path _ refused _ => ⟨loader, hl, tree, path, refused⟩) s.fuel
    (h.begins tells own fits _)

theorem fits (reach : ∀ v ∈ work.values, v.Within (s.GetsTo hand)) :
    (Names.ofValues work.values).Fit (h.custody tells).grasp :=
  Names.fit_ofValues.mpr fun v hv => (reach v hv).mono fun _ hc => h.alive hc

omit h tells in
theorem places_of_mayDo (may : s.MayDo work) : ∀ c ∈ work.places, c = s.world := by
  cases work with
  | expr | stmt => exact may.elim
  | batch | line => exact List.forall_mem_singleton.mpr may
  | callback => exact nofun

/-- Work in the session leaves it tended. -/
theorem worked (may : s.MayDo work) (reach : ∀ v ∈ work.values, v.Within (s.GetsTo hand))
    (world : t.world = s.world) (left : t.machine = work.after s.config s.fuel s.machine) :
    ∃ r', t.Tended hand r' := by
  obtain ⟨w', next, ended⟩ := h.runs tells work.tracked (places_of_mayDo may) (h.fits tells reach)
  refine ⟨w'.realm, h.later tells next world ?_⟩
  rw [left, Work.after, Run.after]
  cases hr : work.run (evaluator s.config s.fuel) s.machine <;>
  · rw [hr] at ended
    exact ended.1

/-- What a run in the session gives is alive in the realm. -/
theorem given {value : Value} {m : Machine} {x : Evaluator → Run Value}
    (tracked : Run.Tracked f kept names Value.names x) (own : ∀ c ∈ kept, c = s.world)
    (fits : names.Fit (h.custody tells).grasp)
    (run : x (evaluator s.config s.fuel) s.machine = .ok value m) :
    ∃ r', ({ s with machine := m } : Session).Tended (value :: hand) r' := by
  obtain ⟨w', next, ended⟩ := h.runs tells tracked own fits
  rw [run] at ended
  have tended := h.later (t := { s with machine := m }) tells next rfl ended.1
  refine ⟨w'.realm, { tended with hand := List.forall_mem_cons.mpr ⟨?_, tended.hand⟩ }⟩
  have store : m.store = w'.store := congrArg Scene.store ended.1
  show value.Within (w'.realm.Alive m.store)
  rw [store]
  exact fit_value.mp ended.2

/-- At every moment of work in the session, and after all that is let go there, whatever the work can
get to has its owners. -/
theorem throughout (may : s.MayDo work) (reach : ∀ v ∈ work.values, v.Within (s.GetsTo hand)) :
    Throughout s.config s.fuel (fun c m => ∀ t, m.scene.LetsGo t → ∀ d,
      t.store.GetsTo (t.Begins s.world c) d → t.store.Founded d) work.run s.machine := by
  refine Upkeep.throughout_of_tracked (U := Custody.upkeep s.world fun _ => True) work.tracked
    (fun _ _ _ _ _ _ _ => trivial)
    (h.begins tells (places_of_mayDo may) (h.fits tells reach) _) ?_ fun _ _ _ => h.honest tells
  intro c w₁ _ m next honest kept same t letsGo d hd
  obtain ⟨w', next', rfl⟩ := Custody.letsGo (w := w₁) (same ▸ letsGo)
  exact Custody.founded (Custody.Honest.next honest next') (next'.keeps kept) hd

/-- Work in the session raises no stray fault of its own. -/
theorem refused (may : s.MayDo work) (reach : ∀ v ∈ work.values, v.Within (s.GetsTo hand))
    {e : Failure} {raised : Raised} {m : Machine}
    (stops : work.run (evaluator s.config s.fuel) s.machine = .error (.failed e raised) m) :
    e.fault.stray = false ∨ s.config.Refuses e.fault := by
  obtain ⟨w', -, ended⟩ := h.runs tells work.tracked (places_of_mayDo may) (h.fits tells reach)
  rw [stops] at ended
  cases stray : e.fault.stray with
  | false => exact .inl rfl
  | true => exact .inr (ended.2 e raised rfl stray)

end Tended

variable {s t : Session} {hand : List Value} {config : Config} {fuel : Nat}

theorem Hosts.told (h : Hosts config fuel s hand) : Hosts config fuel (s.told hand) hand :=
  .elsewhere h rfl rfl

theorem Hosts.setting (h : Hosts config fuel s hand) : s.config = config ∧ s.fuel = fuel := by
  induction h with
  | starts => exact ⟨rfl, rfl⟩
  | uses _ _ step ih =>
    obtain ⟨setting, -⟩ := step.used fun _ _ bare v hv => by rw [bare] at hv; cases hv
    exact ⟨setting.config.trans ih.1, setting.fuel.trans ih.2⟩
  | @line s _ stmt _ _ _ _ ih =>
    have setting := setting_runLine s stmt
    exact ⟨setting.config.trans ih.1, setting.fuel.trans ih.2⟩
  | callback _ _ _ _ ih | takes _ _ ih | drops _ _ ih | letsGo _ _ _ ih | elsewhere _ _ _ ih =>
    exact ih

/-- Whatever its host does, a session is tended. -/
theorem Hosts.tended (h : Hosts config fuel s hand) : ∃ r, s.Tended hand r := by
  induction h with
  | starts disk output input limit => exact ⟨_, .start config fuel disk output input limit⟩
  | uses _ tells step ih =>
    obtain ⟨r, tended⟩ := ih
    obtain ⟨setting, machine⟩ := step.used fun _ _ bare v hv => by rw [bare] at hv; cases hv
    rcases machine with same | ⟨work, ⟨may, reach⟩, left⟩
    · exact ⟨r, tended.of_same setting.world (by rw [same]) (by rw [same])⟩
    · exact tended.worked tells may reach setting.world left
  | @line s hand stmt v _ tells given ih =>
    obtain ⟨r, tended⟩ := ih
    obtain ⟨m, ran⟩ := statement_of_runLine given
    have left : (s.runLine stmt).2 = { s with machine := m } := by rw [runLine, ran]
    rw [left]
    exact tended.given tells (Eval.tracked_statement stmt s.world) (fun c => List.mem_singleton.mp)
      Names.fit_none ran
  | callback _ tells reach given ih =>
    obtain ⟨r, tended⟩ := ih
    refine tended.given tells (Eval.tracked_callback _ _ _) (List.forall_mem_nil _) ?_ given
    exact Names.fit_ofValues.mpr fun v hv => (reach v hv).mono fun _ hc => tended.alive hc
  | takes _ reach ih =>
    obtain ⟨r, tended⟩ := ih
    have within := reach.mono fun _ hc => tended.alive hc
    exact ⟨r, { tended with hand := List.forall_mem_cons.mpr ⟨within, tended.hand⟩ }⟩
  | drops _ sub ih =>
    obtain ⟨r, tended⟩ := ih
    exact ⟨r, { tended with hand := fun v hv => tended.hand v (sub hv) }⟩
  | letsGo _ tells letsGo ih =>
    obtain ⟨r, tended⟩ := ih
    obtain ⟨w', next, same⟩ := Custody.letsGo (w := tended.custody tells) letsGo
    exact ⟨w'.realm, tended.later tells next rfl same.symm⟩
  | elsewhere _ store held ih =>
    obtain ⟨r, tended⟩ := ih
    exact ⟨r, tended.of_same rfl store held⟩

end Session

namespace Config

/-- No import is refused as if code had lost its World. -/
def Plain (config : Config) : Prop := ∀ fault, config.Refuses fault → fault.stray = false

theorem plain_none (argv : List String) : Plain ⟨argv, none⟩ := by
  rintro fault ⟨loader, ⟨⟩, -⟩

theorem plain_ofList (argv : List String) (programs : List (String × Program)) :
    Plain ⟨argv, some (.ofList programs)⟩ := by
  rintro fault ⟨_, ⟨⟩, files, path, refused⟩
  unfold Loader.ofList at refused
  split at refused <;> cases refused
  rfl

theorem plain_ofDirectory (argv : List String) (dir : String)
    (parse : String → Except String Program) : Plain ⟨argv, some (.ofDirectory dir parse)⟩ := by
  rintro fault ⟨_, ⟨⟩, files, path, refused⟩
  unfold Loader.ofDirectory at refused
  split at refused
  · cases refused
    rfl
  · split at refused <;> cases refused
    rfl

end Config

/-- **Owners.** Whatever a host does with a session whose World it holds, all that can be got to from
the World or from a value in hand has its owners, which are alive and lead to a living World. The same
goes for all that work in the session can get to, at every moment of it, from the World, from where
its code runs and from what it holds, and it still does after all that can be let go there has been.
No code is ever told that its World is gone, or that it has none, unless that is what an import is
refused with, and no loader of the language does so. -/
theorem owners_never_lost (config : Config) (fuel : Nat) :
    (∀ (s : Session) (hand : List Value), Session.Hosts config fuel s hand →
      (∀ c, s.GetsTo hand c → s.machine.store.Founded c) ∧
      (s.Tells hand → ∀ work, s.MayDo work → (∀ v ∈ work.values, v.Within (s.GetsTo hand)) →
        Throughout config fuel (fun c m => ∀ t, m.scene.LetsGo t → ∀ d,
          t.store.GetsTo (t.Begins s.world c) d → t.store.Founded d) work.run s.machine ∧
        ∀ e raised m, work.run (evaluator config fuel) s.machine = .error (.failed e raised) m →
          e.fault.stray = false ∨ config.Refuses e.fault)) ∧
    ∀ argv, Config.Plain ⟨argv, none⟩ ∧
      (∀ programs, Config.Plain ⟨argv, some (.ofList programs)⟩) ∧
      ∀ dir parse, Config.Plain ⟨argv, some (.ofDirectory dir parse)⟩ := by
  refine ⟨fun s hand hosts => ?_, fun argv =>
    ⟨Config.plain_none argv, Config.plain_ofList argv, Config.plain_ofDirectory argv⟩⟩
  obtain ⟨rfl, rfl⟩ := hosts.setting
  obtain ⟨r, tended⟩ := hosts.tended
  refine ⟨fun c => tended.founded, fun tells work may reach => ⟨?_, fun e raised m stops => ?_⟩⟩
  · exact tended.throughout tells may reach
  · exact tended.refused tells may reach stops

/-- A session imports a module that keeps a closure, the same module again, and a module that keeps a
closure and fails. Both failures are reported, and what is known of the World and of the module still
has its owners, at every moment of one more try as well. That fails too, but not because a World is
gone. -/
theorem owners_never_lost_failed_imports :
    let span : Span := ⟨0, 1⟩
    let expr (node : ExprNode) : Expr := ⟨node, span⟩
    let closure : ExprNode := .closure [] [⟨.ret (some (expr (.name "f"))), span⟩]
    let module : Program := [⟨.nameModule "m", span⟩, ⟨.letVar "f" none (expr closure) .none, span⟩]
    let broken : Program := module ++ [⟨.expr (expr (.name "y")), span⟩]
    let config : Config := ⟨[], some (Loader.ofList [("m", module), ("b", broken)])⟩
    let importing (path : String) : Stmt := ⟨.importPath path, span⟩
    let start := Session.start config 8 (.start .empty .silent [] none)
    let s₁ := ((start.told []).runLine (importing "m")).2
    let s₂ := ((s₁.told []).runLine (importing "m")).2
    let s₃ := ((s₂.told []).runLine (importing "b")).2.told []
    let again := Work.line (importing "b") s₃.world
    s₃.errors.length = 2 ∧ s₃.machine.store.Founded s₃.world ∧ s₃.machine.store.Founded 1 ∧
      Throughout config 8 (fun c m => ∀ t, m.scene.LetsGo t → ∀ d,
        t.store.GetsTo (t.Begins s₃.world c) d → t.store.Founded d) again.run s₃.machine ∧
      ∀ e raised m, again.run (evaluator config 8) s₃.machine = .error (.failed e raised) m →
        e.fault.stray = false := by
  intro span expr closure module broken config importing start s₁ s₂ s₃ again
  have step {u : Session} (path : String) (h : Session.Hosts config 8 u []) :
      Session.Hosts config 8 ((u.told []).runLine (importing path)).2 [] :=
    .uses h.told (u.tells_told []) (.line _ _)
  have hosts : Session.Hosts config 8 s₃ [] :=
    (step "b" (step "m" (step "m" (.starts .empty .silent [] none)))).told
  obtain ⟨sessions, loaders⟩ := owners_never_lost config 8
  obtain ⟨founded, working⟩ := sessions s₃ [] hosts
  obtain ⟨moments, refused⟩ := working (Session.tells_told _ []) again rfl nofun
  have knows : (s₃.machine.store.graph.kind? s₃.world).any (·.imports.any (·.2 == 1)) = true := by
    decide +kernel
  obtain ⟨kind, hk, knows⟩ := (Option.any_eq_true ..).mp knows
  obtain ⟨e, he, module⟩ := List.any_eq_true.mp knows
  refine ⟨by decide +kernel, founded _ (Store.getsTo_root (.inl rfl)), founded 1 ?_, moments,
    fun e raised m stops => (refused e raised m stops).elim id ((loaders []).2.1 _ e.fault)⟩
  exact ⟨_, .inl rfl, .single (.imported ⟨kind, hk, e, he, eq_of_beq module⟩)⟩

end TreeScript
