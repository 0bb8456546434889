import Mathlib.Data.List.Find
import TreeScript.Proofs.Context.Scopes

/-!
# Where names are bound

The frame in which look-up finds a variable. Look-up goes through a list of sites, the same for all
names, and takes the first that binds the name.
-/
namespace TreeScript

namespace ScopeStack

variable {α : Type} {s : ScopeStack α} {name : String} {item : α} {h : Nat}

/-- The innermost of some frames that binds the name, by its height above the outermost, which has
height 1, and what it binds. -/
def findIn (name : String) : List (Frame α) → Option (Nat × α)
  | [] => none
  | frame :: below =>
    match frame.lookup name with
    | some item => some (below.length + 1, item)
    | none => findIn name below

def find? (s : ScopeStack α) (name : String) : Option (Nat × α) := findIn name s.frames

/-- The frames above some height. -/
def above (s : ScopeStack α) (h : Nat) : List (Frame α) := s.frames.take (s.depth - h)

theorem map_findIn (name : String) (frames : List (Frame α)) :
    (findIn name frames).map Prod.snd = frames.findSome? (·.lookup name) := by
  induction frames with
  | nil => rfl
  | cons frame below ih =>
    rw [findIn, List.findSome?_cons]
    cases frame.lookup name with
    | some item => rfl
    | none => exact ih

theorem get?_eq_find? (s : ScopeStack α) (name : String) :
    s.get? name = (s.find? name).map Prod.snd := (map_findIn name s.frames).symm

theorem height_of_findIn {frames : List (Frame α)} (hf : findIn name frames = some (h, item)) :
    1 ≤ h ∧ h ≤ frames.length := by
  induction frames with
  | nil => cases hf
  | cons frame below ih =>
    rw [findIn] at hf
    split at hf
    · cases hf
      simp
    · have := ih hf
      rw [List.length_cons]
      omega

theorem findIn_eq_none_iff {frames : List (Frame α)} :
    findIn name frames = none ↔ ∀ frame ∈ frames, frame.lookup name = none := by
  induction frames with
  | nil => simp [findIn]
  | cons frame below ih =>
    rw [findIn, List.forall_mem_cons]
    split
    · rename_i item hl
      simp [hl]
    · rename_i hl
      simp [hl, ih]

/-- Look-up ends above a height exactly when some frame there binds the name. -/
theorem lt_height_iff {frames : List (Frame α)} (d : Nat)
    (hf : findIn name frames = some (h, item)) :
    d < h ↔ ∃ frame ∈ frames.take (frames.length - d), (frame.lookup name).isSome := by
  induction frames with
  | nil => cases hf
  | cons frame below ih =>
    rw [findIn] at hf
    by_cases hd : d ≤ below.length
    · rw [List.length_cons, Nat.succ_sub hd, List.take_succ_cons]
      split at hf
      · rename_i item hl
        cases hf
        simp only [List.mem_cons, exists_eq_or_imp, hl, Option.isSome_some, true_or, iff_true]
        omega
      · rename_i hl
        simp only [List.mem_cons, exists_eq_or_imp, hl, Option.isSome_none, Bool.false_eq_true,
          false_or]
        exact ih hf
    · have hle : h ≤ below.length + 1 := by
        split at hf
        · cases hf
          exact Nat.le_refl _
        · exact Nat.le_succ_of_le (height_of_findIn hf).2
      rw [List.length_cons, Nat.sub_eq_zero_of_le (by omega), List.take_zero]
      simp only [List.not_mem_nil, false_and, exists_false, iff_false]
      omega

/-- Whether a frame above some height binds the name. -/
def BindsAbove (s : ScopeStack α) (h : Nat) (name : String) : Prop :=
  ∃ frame ∈ s.above h, (frame.lookup name).isSome

theorem bindsAbove_iff (s : ScopeStack α) (d : Nat) (name : String) :
    s.BindsAbove d name ↔ ∃ h item, s.find? name = some (h, item) ∧ d < h := by
  constructor
  · rintro ⟨frame, hin, hb⟩
    cases hf : s.find? name with
    | none =>
      have unbound := findIn_eq_none_iff.mp hf frame (List.mem_of_mem_take hin)
      rw [unbound] at hb
      cases hb
    | some found => exact ⟨found.1, found.2, rfl, (lt_height_iff d hf).mpr ⟨frame, hin, hb⟩⟩
  · rintro ⟨h, item, hf, hd⟩
    exact (lt_height_iff d hf).mp hd

/-- The base frame. -/
def bottom (s : ScopeStack α) : Frame α := s.below.getLastD s.top

theorem bottom_push (s : ScopeStack α) : s.push.bottom = s.bottom := by
  rw [bottom, push, List.getLastD_cons]
  rfl

theorem bottom_pop (inner : s.below ≠ []) : s.pop.bottom = s.bottom := by
  obtain ⟨top, below⟩ := s
  cases below with
  | nil => exact absurd rfl inner
  | cons frame rest => rw [bottom, bottom, List.getLastD_cons, pop]

/-- A new name takes nothing from the base frame. -/
theorem lookup_bottom_bind {other : String} {new : α} (h : s.bottom.lookup name = some item)
    (free : s.bindsOnTop other = false) : (s.bind other new).bottom.lookup name = some item := by
  obtain ⟨top, below⟩ := s
  cases below with
  | nil =>
    have hne : name ≠ other := by
      rintro rfl
      rw [bindsOnTop, show List.lookup name top = some item from h] at free
      cases free
    show List.lookup name ((other, new) :: top) = some item
    rw [List.lookup_cons, beq_false_of_ne hne]
    exact h
  | cons frame rest => exact h

theorem bottom_of_findIn {frame : Frame α} {below : List (Frame α)}
    (hf : findIn name (frame :: below) = some (1, item)) :
    (below.getLastD frame).lookup name = some item := by
  induction below generalizing frame with
  | nil =>
    rw [findIn] at hf
    cases hl : frame.lookup name with
    | none =>
      rw [hl] at hf
      cases hf
    | some found =>
      rw [hl] at hf
      cases hf
      exact hl
  | cons frame' below ih =>
    rw [findIn] at hf
    cases hl : frame.lookup name with
    | none =>
      rw [hl] at hf
      rw [List.getLastD_cons]
      exact ih hf
    | some found =>
      rw [hl] at hf
      cases hf

theorem findIn_of_bottom {frame : Frame α} {below : List (Frame α)}
    (hb : (below.getLastD frame).lookup name = some item) :
    findIn name (frame :: below) = some (1, item) ∨
      ∃ h found, findIn name (frame :: below) = some (h, found) ∧ 1 < h := by
  induction below generalizing frame with
  | nil =>
    rw [findIn, show frame.lookup name = some item from hb]
    exact .inl rfl
  | cons frame' below ih =>
    rw [findIn]
    cases hl : frame.lookup name with
    | none =>
      rw [List.getLastD_cons] at hb
      exact ih hb
    | some found => exact .inr ⟨_, found, rfl, by simp⟩

/-- What the base frame binds is found unless a frame above binds the name. -/
theorem find?_eq_bottom_iff (hb : s.bottom.lookup name = some item) :
    s.find? name = some (1, item) ↔ ¬s.BindsAbove 1 name := by
  rw [bindsAbove_iff]
  constructor
  · rintro hf ⟨h, found, hf', hd⟩
    cases hf.symm.trans hf'
    exact Nat.lt_irrefl 1 hd
  · intro none
    rcases findIn_of_bottom hb with hf | ⟨h, found, hf, hd⟩
    · exact hf
    · exact absurd ⟨h, found, hf, hd⟩ none

end ScopeStack

/-- A variable as it is bound: in which context, in which of its frames, and to which cell. A
constructor argument is bound below all frames, at height 0. -/
structure Binding where
  ctx : CtxId
  height : Nat
  cell : CellId
  deriving DecidableEq

/-- What look-up goes through: the frames of a context, or the constructor arguments of an
instance. -/
inductive Site where
  | frames (c : CtxId)
  | arguments (c : CtxId)
  deriving DecidableEq

def Site.ctx : Site → CtxId
  | frames c | arguments c => c

namespace Graph

variable {g g' : Graph} {c d : CtxId} {name : String}

/-- The binding of a name in the context itself. -/
def localBinding? (g : Graph) (c : CtxId) (name : String) : Option Binding :=
  ((g.scopes? c).bind (·.vars.find? name)).map fun (h, i) => ⟨c, h, i⟩

/-- The binding of a name at a site. -/
def bindingAt? (g : Graph) (name : String) : Site → Option Binding
  | .frames c => g.localBinding? c name
  | .arguments c => ((g.arguments? c).bind (·.lookup name)).map fun i => ⟨c, 0, i⟩

/-- Whether a context is an instance, going by its skeleton. -/
def isInstance (g : Graph) (c : CtxId) : Bool := (g.skeleton? c).any ContextKind.isObject

/-- The sites that look-up goes through from the first context of a chain on. Code of a class sees
the members of the instance first. -/
def sitesAlong (g : Graph) : List CtxId → List Site
  | [] => []
  | c :: outer =>
    match g.skeleton? c with
    | none => []
    | some (.world ..) => [.frames c]
    | some (.call ..) =>
      ((outer.find? g.isInstance).map Site.frames).toList ++ .frames c :: sitesAlong g outer
    | some (.object ..) => .frames c :: .arguments c :: sitesAlong g outer
    | some (.closure ..) => .frames c :: sitesAlong g outer

/-- The sites that look-up goes through in a context. -/
def sites (g : Graph) (c : CtxId) : List Site := g.sitesAlong (g.chain c)

/-- The binding that a name has in a context. -/
def binding? (g : Graph) (c : CtxId) (name : String) : Option Binding :=
  (g.sites c).findSome? (g.bindingAt? name)

theorem isInstance_eq (g : Graph) (c : CtxId) : g.isInstance c = g.isObject c := by
  rw [isInstance, isObject, skeleton?, Option.any_map]
  congr 1
  funext kind
  exact isObject_skeleton kind

theorem localVar?_of_member? {i : CellId} (h : g.member? c name = some i) :
    g.localVar? c name = some i := by
  rw [member?] at h
  split at h
  · exact h
  · cases h

theorem localVar?_eq (g : Graph) (c : CtxId) (name : String) :
    g.localVar? c name = (g.localBinding? c name).map Binding.cell := by
  rw [localVar?, localBinding?, scopes?]
  cases g.context? c with
  | none => rfl
  | some ctx =>
    show ctx.vars.get? name = _
    rw [ScopeStack.get?_eq_find?, Option.map_map]
    rfl

theorem argument?_eq (g : Graph) (c : CtxId) (name : String) :
    g.argument? c name = (g.bindingAt? name (.arguments c)).map Binding.cell := by
  rw [argument?, bindingAt?, arguments?, Option.map_map]
  cases g.kind? c with
  | none => rfl
  | some kind => cases kind <;> simp [ContextKind.arguments?, Function.comp_def]

theorem findSome?_cons_or {α β : Type} (f : α → Option β) (a : α) (l : List α) :
    (a :: l).findSome? f = (f a).or (l.findSome? f) := by
  rw [List.findSome?_cons]
  cases f a <;> rfl

theorem findSome?_congr {α β : Type} {f g : α → Option β} {l : List α} (h : ∀ a ∈ l, f a = g a) :
    l.findSome? f = l.findSome? g := by
  induction l with
  | nil => rfl
  | cons a l ih =>
    rw [findSome?_cons_or, findSome?_cons_or, h a List.mem_cons_self,
      ih fun b hb => h b (List.mem_cons_of_mem a hb)]

/-- The member that code of a class means by a name. -/
theorem memberAlong_eq (g : Graph) (name : String) (outer : List CtxId) :
    (outer.find? g.isObject).bind (g.member? · name) =
      (((outer.find? g.isInstance).map Site.frames).toList.findSome? (g.bindingAt? name)).map
        Binding.cell := by
  have same : g.isInstance = g.isObject := funext g.isInstance_eq
  rw [same]
  cases ho : outer.find? g.isObject with
  | none => rfl
  | some d =>
    have object : g.isObject d = true := List.find?_some ho
    simp only [Option.bind_some, member?, object, if_true, Option.map_some, Option.toList_some,
      findSome?_cons_or, List.findSome?_nil, Option.or_none, localVar?_eq]
    rfl

/-- Look-up takes the first site that binds the name. -/
theorem varAlong?_eq (g : Graph) (name : String) : ∀ cs, g.varAlong? name cs =
    ((g.sitesAlong cs).findSome? (g.bindingAt? name)).map Binding.cell
  | [] => rfl
  | c :: outer => by
    have ih := varAlong?_eq g name outer
    have frames : g.localVar? c name = (g.bindingAt? name (.frames c)).map Binding.cell :=
      localVar?_eq g c name
    rw [varAlong?, sitesAlong, skeleton?]
    cases hk : g.kind? c with
    | none => rfl
    | some kind =>
      cases kind with
      | world module classes imports =>
        simp only [Option.map_some, ContextKind.skeleton, ContextKind.emptyWorld,
          findSome?_cons_or, List.findSome?_nil, Option.or_none, frames]
      | call owner function =>
        simp only [Option.map_some, ContextKind.skeleton, List.findSome?_append,
          findSome?_cons_or, Option.map_or, frames, ih, memberAlong_eq]
      | object owner decl given arguments members =>
        simp only [Option.map_some, ContextKind.skeleton, findSome?_cons_or, Option.map_or, frames,
          argument?_eq, ih]
      | closure owner =>
        simp only [Option.map_some, ContextKind.skeleton, findSome?_cons_or, Option.map_or, frames,
          ih]

theorem var?_eq (g : Graph) (c : CtxId) (name : String) :
    g.var? c name = (g.binding? c name).map Binding.cell := g.varAlong?_eq name (g.chain c)

/-- Whether a frame of a context above some height binds a variable. -/
def BindsAbove (g : Graph) (c : CtxId) (h : Nat) (name : String) : Prop :=
  ∃ scopes ∈ g.scopes? c, scopes.vars.BindsAbove h name

/-- A binding lies in the context of its site. -/
theorem ctx_of_bindingAt? {s : Site} {β : Binding} (h : g.bindingAt? name s = some β) :
    β.ctx = s.ctx := by
  cases s with
  | frames c =>
    obtain ⟨⟨height, i⟩, -, rfl⟩ := Option.map_eq_some_iff.mp h
    rfl
  | arguments c =>
    obtain ⟨i, -, rfl⟩ := Option.map_eq_some_iff.mp h
    rfl

theorem bindsAbove_iff {h : Nat} :
    g.BindsAbove c h name ↔ ∃ β, g.localBinding? c name = some β ∧ h < β.height := by
  constructor
  · rintro ⟨scopes, hs, hb⟩
    obtain ⟨height, i, hf, above⟩ := (ScopeStack.bindsAbove_iff scopes.vars h name).mp hb
    refine ⟨⟨c, height, i⟩, ?_, above⟩
    rw [localBinding?, hs, Option.bind_some, hf]
    rfl
  · rintro ⟨β, hβ, above⟩
    obtain ⟨⟨height, i⟩, hf, rfl⟩ := Option.map_eq_some_iff.mp hβ
    obtain ⟨scopes, hs, hf⟩ := Option.bind_eq_some_iff.mp hf
    exact ⟨scopes, hs,
      (ScopeStack.bindsAbove_iff scopes.vars h name).mpr ⟨height, i, hf, above⟩⟩

theorem localBinding?_eq_none (h : g.localVar? c name = none) : g.localBinding? c name = none := by
  rw [localVar?_eq] at h
  exact Option.map_eq_none_iff.mp h

theorem chainUpTo_succ (g : Graph) : ∀ n c, c ≤ n → g.chainUpTo (n + 1) c = g.chainUpTo n c
  | 0, c, hc => by
    obtain rfl : c = 0 := Nat.le_zero.mp hc
    cases ho : g.owner? 0 with
    | none => simp only [chainUpTo, ho]
    | some o => exact absurd (lt_of_owner? ho) (Nat.not_lt_zero o)
  | n + 1, c, hc => by
    rw [chainUpTo, chainUpTo]
    cases ho : g.owner? c with
    | none => rfl
    | some o =>
      have hlt := lt_of_owner? ho
      exact congrArg (c :: ·) (chainUpTo_succ g n o (Nat.le_of_lt_succ (Nat.lt_of_lt_of_le hlt hc)))

theorem chainUpTo_eq_chain (g : Graph) {n c : Nat} (h : c ≤ n) : g.chainUpTo n c = g.chain c := by
  induction n with
  | zero =>
    obtain rfl : c = 0 := Nat.le_zero.mp h
    rfl
  | succ n ih =>
    by_cases hc : c ≤ n
    · rw [chainUpTo_succ g n c hc, ih hc]
    · obtain rfl : c = n + 1 := by omega
      rfl

/-- The context itself, and then the chain of its owner. -/
theorem chain_eq (g : Graph) (c : CtxId) :
    g.chain c = c :: (match g.owner? c with
      | none => []
      | some o => g.chain o) := by
  cases c with
  | zero =>
    cases ho : g.owner? 0 with
    | none => rfl
    | some o => exact absurd (lt_of_owner? ho) (Nat.not_lt_zero o)
  | succ n =>
    rw [chain, chainUpTo]
    cases ho : g.owner? (n + 1) with
    | none => rfl
    | some o =>
      have hlt := lt_of_owner? ho
      exact congrArg (_ :: ·) (chainUpTo_eq_chain g (Nat.le_of_lt_succ hlt))

/-- The contexts that own the code of a context, from the nearest on. -/
def owners (g : Graph) (c : CtxId) : List CtxId := (g.chain c).tail

theorem chain_eq_cons (g : Graph) (c : CtxId) : g.chain c = c :: g.owners c := by
  rw [owners, chain_eq]
  rfl

theorem le_of_mem_chainUpTo {n : Nat} (h : d ∈ g.chainUpTo n c) : d ≤ c := by
  induction n generalizing c with
  | zero =>
    rw [chainUpTo, List.mem_singleton] at h
    exact Nat.le_of_eq h
  | succ n ih =>
    rw [chainUpTo] at h
    cases ho : g.owner? c with
    | none =>
      rw [ho, List.mem_singleton] at h
      exact Nat.le_of_eq h
    | some o =>
      rw [ho] at h
      rcases List.mem_cons.mp h with rfl | h
      · exact Nat.le_refl _
      · exact Nat.le_of_lt (Nat.lt_of_le_of_lt (ih h) (lt_of_owner? ho))

/-- Owners are older. -/
theorem lt_of_mem_owners (h : d ∈ g.owners c) : d < c := by
  rw [owners, chain_eq] at h
  cases ho : g.owner? c with
  | none =>
    rw [ho] at h
    cases h
  | some o =>
    rw [ho] at h
    exact Nat.lt_of_le_of_lt (le_of_mem_chainUpTo h) (lt_of_owner? ho)

theorem mem_of_mem_sitesAlong {s : Site} :
    ∀ {cs : List CtxId}, s ∈ g.sitesAlong cs → s.ctx ∈ cs
  | c :: outer, h => by
    rw [sitesAlong] at h
    split at h
    · cases h
    · rw [List.mem_singleton] at h
      subst h
      exact List.mem_cons_self
    · rcases List.mem_append.mp h with h | h
      · obtain ⟨d, hd, rfl⟩ := Option.map_eq_some_iff.mp (Option.mem_toList.mp h)
        exact List.mem_cons_of_mem _ (List.mem_of_find?_eq_some hd)
      · rcases List.mem_cons.mp h with rfl | h
        · exact List.mem_cons_self
        · exact List.mem_cons_of_mem _ (mem_of_mem_sitesAlong h)
    · rcases List.mem_cons.mp h with rfl | h
      · exact List.mem_cons_self
      · rcases List.mem_cons.mp h with rfl | h
        · exact List.mem_cons_self
        · exact List.mem_cons_of_mem _ (mem_of_mem_sitesAlong h)
    · rcases List.mem_cons.mp h with rfl | h
      · exact List.mem_cons_self
      · exact List.mem_cons_of_mem _ (mem_of_mem_sitesAlong h)

/-- Two graphs have the same contexts up to `c`, and the same of them are alive. -/
def SameUpTo (g g' : Graph) (c : CtxId) : Prop :=
  ∀ d ≤ c, g'.skeleton? d = g.skeleton? d ∧ g'.isLive d = g.isLive d

theorem isWorld_eq (g : Graph) (d : CtxId) :
    g.isWorld d = (g.skeleton? d).any ContextKind.isWorld := by
  rw [isWorld, skeleton?, Option.any_map]
  congr 1
  funext kind
  exact (isWorld_skeleton kind).symm

theorem bind_owner?_eq (g : Graph) (c : CtxId) :
    (g.kind? c).bind ContextKind.owner? = (g.skeleton? c).bind ContextKind.owner? := by
  rw [skeleton?, Option.bind_map]
  congr 1
  funext kind
  exact (owner?_skeleton kind).symm

theorem SameUpTo.follow_eq (h : SameUpTo g g' c) (hd : d ≤ c) : g'.follow d = g.follow d := by
  obtain ⟨hs, hl⟩ := h d hd
  rw [follow, follow, isWorld_eq, isWorld_eq, hs, hl]

theorem SameUpTo.owner?_eq (h : SameUpTo g g' c) : g'.owner? c = g.owner? c := by
  rw [owner?, owner?, bind_owner?_eq, bind_owner?_eq, (h c (Nat.le_refl c)).1]
  split
  · rfl
  · split
    · rename_i hlt
      exact h.follow_eq (Nat.le_of_lt hlt)
    · rfl

/-- An owner that is older and there is the owner. -/
theorem owner?_of_skeleton {kind : ContextKind} {o : CtxId} (hk : g.skeleton? c = some kind)
    (howner : kind.owner? = some o) (hlt : o < c) (follow : g.follow o = some o) :
    g.owner? c = some o := by
  rw [owner?, bind_owner?_eq, hk, Option.bind_some, howner]
  dsimp only
  rw [if_pos hlt, follow]

theorem SameUpTo.mono (h : SameUpTo g g' c) (hd : d ≤ c) : SameUpTo g g' d :=
  fun e he => h e (Nat.le_trans he hd)

theorem SameUpTo.chainUpTo_eq {n : Nat} (h : SameUpTo g g' c) :
    g'.chainUpTo n c = g.chainUpTo n c := by
  induction n generalizing c with
  | zero => rfl
  | succ n ih =>
    rw [chainUpTo, chainUpTo, h.owner?_eq]
    cases ho : g.owner? c with
    | none => rfl
    | some o => exact congrArg (c :: ·) (ih (h.mono (Nat.le_of_lt (lt_of_owner? ho))))

theorem sitesAlong_congr : ∀ {cs : List CtxId},
    (∀ d ∈ cs, g'.skeleton? d = g.skeleton? d) → g'.sitesAlong cs = g.sitesAlong cs
  | [], _ => rfl
  | c :: outer, h => by
    have rest := sitesAlong_congr fun d hd => h d (List.mem_cons_of_mem _ hd)
    have members : outer.find? g'.isInstance = outer.find? g.isInstance := by
      refine List.find?_congr fun d hd => ?_
      rw [isInstance, isInstance, h d (List.mem_cons_of_mem _ hd)]
    rw [sitesAlong, sitesAlong, h c List.mem_cons_self, rest, members]

/-- Look-up goes through the same sites. -/
theorem SameUpTo.sites_eq (h : SameUpTo g g' c) : g'.sites c = g.sites c := by
  rw [sites, sites, chain, chain, h.chainUpTo_eq]
  exact sitesAlong_congr fun d hd => (h d (le_of_mem_chainUpTo hd)).1

end Graph

end TreeScript
