import TreeScript.Proofs.Machine.Step

/-!
# What survives a release

The survivors of a release are the greatest set of living contexts in which each one is held from
outside or by one of the set.
-/
namespace TreeScript

namespace Store

variable {s : Store} {roots alive : List CtxId} {c d : CtxId}

theorem mem_heldBy : d ∈ s.heldBy c ↔ ∃ ctx, s.graph.context? c = some ctx ∧
    (d ∈ ctx.kind.holds s.graph ∨ ∃ i ∈ ctx.cells, d ∈ (s.cell i).value.holds s.graph) := by
  rw [heldBy]
  cases s.graph.context? c with
  | none => exact ⟨nofun, nofun⟩
  | some ctx =>
    simp only [List.mem_append, List.mem_flatMap, Option.some.injEq, exists_eq_left']
    refine or_congr_right (exists_congr fun i => and_congr_right fun _ => ?_)
    rw [cell]
    cases s.cell? i <;> exact .rfl

theorem mem_keepHeld : c ∈ s.keepHeld roots alive ↔
    c ∈ alive ∧ c < s.graph.size ∧ (c ∈ roots ∨ ∃ d ∈ alive, c ∈ s.heldBy d) := by
  simp only [keepHeld, List.mem_filter, getD_marks, Graph.size, Bool.and_eq_true, decide_eq_true_eq,
    List.contains_iff_mem, List.mem_append, List.mem_flatMap]

/-- A round that lets go nothing leaves all as it is. -/
theorem keepHeld_eq_of_length (h : (s.keepHeld roots alive).length = alive.length) :
    s.keepHeld roots alive = alive :=
  List.filter_sublist.eq_of_length h

theorem mem_of_mem_survivorsAfter (n : Nat) (h : c ∈ s.survivorsAfter roots n alive) : c ∈ alive := by
  induction n generalizing alive with
  | zero => exact h
  | succ n ih =>
    rw [survivorsAfter] at h
    split at h
    · exact (mem_keepHeld.mp h).1
    · exact (mem_keepHeld.mp (ih h)).1

/-- After enough rounds each one that is left is held from outside or by one that is left. -/
theorem held_of_mem_survivorsAfter (n : Nat) (enough : alive.length ≤ n)
    (h : c ∈ s.survivorsAfter roots n alive) :
    c ∈ roots ∨ ∃ d ∈ s.survivorsAfter roots n alive, c ∈ s.heldBy d := by
  induction n generalizing alive with
  | zero =>
    obtain rfl := List.eq_nil_of_length_eq_zero (Nat.le_zero.mp enough)
    cases h
  | succ n ih =>
    rw [survivorsAfter] at h ⊢
    split at h
    · rename_i same
      rw [if_pos same, keepHeld_eq_of_length same]
      exact (mem_keepHeld.mp h).2.2
    · rename_i fewer
      rw [if_neg fewer]
      have le : (s.keepHeld roots alive).length ≤ alive.length := List.length_filter_le ..
      exact ih (Nat.le_of_lt_succ (Nat.lt_of_lt_of_le (Nat.lt_of_le_of_ne le fewer) enough)) h

/-- What is held from outside, or by one of the set, is left. -/
theorem mem_survivorsAfter_of_held {P : CtxId → Prop} (there : ∀ d, P d → d < s.graph.size)
    (held : ∀ d, P d → d ∈ roots ∨ ∃ e, P e ∧ d ∈ s.heldBy e) (n : Nat)
    (living : ∀ d, P d → d ∈ alive) (h : P c) : c ∈ s.survivorsAfter roots n alive := by
  induction n generalizing alive with
  | zero => exact living c h
  | succ n ih =>
    have kept (d : CtxId) (hd : P d) : d ∈ s.keepHeld roots alive :=
      mem_keepHeld.mpr ⟨living d hd, there d hd,
        (held d hd).imp id fun ⟨e, he, mem⟩ => ⟨e, living e he, mem⟩⟩
    rw [survivorsAfter]
    split
    · exact kept c h
    · exact ih kept

theorem mem_living :
    c ∈ (List.range s.graph.contexts.size).filter s.graph.isLive ↔ s.graph.isLive c = true := by
  rw [List.mem_filter, List.mem_range]
  exact ⟨And.right, fun h => ⟨Graph.lt_of_isLive h, h⟩⟩

theorem isLive_of_mem_survivors (h : c ∈ s.survivors roots) : s.graph.isLive c = true :=
  mem_living.mp (mem_of_mem_survivorsAfter _ h)

theorem held_of_mem_survivors (h : c ∈ s.survivors roots) :
    c ∈ roots ∨ ∃ d ∈ s.survivors roots, c ∈ s.heldBy d :=
  held_of_mem_survivorsAfter _ (Nat.le_refl _) h

/-- The survivors are the greatest set of this kind. -/
theorem mem_survivors_of_held {P : CtxId → Prop} (living : ∀ d, P d → s.graph.isLive d = true)
    (held : ∀ d, P d → d ∈ roots ∨ ∃ e, P e ∧ d ∈ s.heldBy e) (h : P c) : c ∈ s.survivors roots :=
  mem_survivorsAfter_of_held (fun d hd => Graph.lt_of_isLive (living d hd)) held _
    (fun d hd => mem_living.mpr (living d hd)) h

/-- What a survivor holds survives with it. -/
theorem mem_survivors_of_heldBy (hc : c ∈ s.survivors roots) (held : d ∈ s.heldBy c)
    (living : s.graph.isLive d = true) : d ∈ s.survivors roots := by
  refine mem_survivors_of_held (P := fun e => e ∈ s.survivors roots ∨ e = d) ?_ ?_ (.inr rfl)
  · rintro e (he | rfl)
    · exact isLive_of_mem_survivors he
    · exact living
  · rintro e (he | rfl)
    · exact (held_of_mem_survivors he).imp id fun ⟨f, hf, mem⟩ => ⟨f, .inl hf, mem⟩
    · exact .inr ⟨c, .inl hc, held⟩

theorem isLive_release (s : Store) (holds : List Hold) (c : CtxId) :
    (s.release holds).graph.isLive c = true ↔ c ∈ s.survivors (holds.flatMap (·.contexts s)) := by
  rcases Nat.lt_or_ge c s.graph.size with there | beyond
  · have there : c < s.graph.contexts.size := there
    have kept : (s.release holds).graph.isLive c =
        (s.marks (s.survivors (holds.flatMap (·.contexts s)))).getD c false := by
      simp [release, Graph.isLive, Graph.context?, Array.getElem?_mapIdx,
        Array.getElem?_eq_getElem there]
    rw [kept, getD_marks, Bool.and_eq_true, decide_eq_true_eq, List.contains_iff_mem]
    exact and_iff_right there
  · constructor
    · intro living
      exact absurd (size_release s holds ▸ Graph.lt_of_isLive living) (Nat.not_lt.mpr beyond)
    · intro survives
      exact absurd (Graph.lt_of_isLive (isLive_of_mem_survivors survives)) (Nat.not_lt.mpr beyond)

/-- A living context that is held from outside survives. -/
theorem isLive_release_of_mem {holds : List Hold} {hold : Hold} (mem : hold ∈ holds)
    (hc : c ∈ hold.contexts s) (living : s.graph.isLive c = true) :
    (s.release holds).graph.isLive c = true := by
  refine (isLive_release s holds c).mpr (mem_survivors_of_held (P := (· = c)) ?_ ?_ rfl)
  · rintro _ rfl
    exact living
  · rintro _ rfl
    exact .inl (List.mem_flatMap.mpr ⟨hold, mem, hc⟩)

theorem isLive_release_of_heldBy {holds : List Hold} (hc : (s.release holds).graph.isLive c = true)
    (held : d ∈ s.heldBy c) (living : s.graph.isLive d = true) :
    (s.release holds).graph.isLive d = true :=
  (isLive_release s holds d).mpr
    (mem_survivors_of_heldBy ((isLive_release s holds c).mp hc) held living)

/-- What nothing holds does not survive. -/
theorem isLive_release_of_unheld {holds : List Hold} (outside : ∀ hold ∈ holds, c ∉ hold.contexts s)
    (unheld : ∀ d, c ∉ s.heldBy d) : (s.release holds).graph.isLive c = false := by
  rw [← Bool.not_eq_true, isLive_release]
  intro survives
  rcases held_of_mem_survivors survives with root | ⟨d, -, held⟩
  · obtain ⟨hold, hh, mem⟩ := List.mem_flatMap.mp root
    exact outside hold hh mem
  · exact unheld d held

end Store

section

variable {g g' : Graph}

mutual

/-- What a value holds hangs on which contexts are Worlds, and on nothing else of the graph. -/
theorem Value.holds_congr (same : g'.isWorld = g.isWorld) : ∀ v : Value, v.holds g' = v.holds g
  | .list items | .tuple items => holdsItems_congr same items
  | .dict (.ofKind _ entries) => holdsEntries_congr same entries
  | .some v => Value.holds_congr same v
  | .closure c => by rw [Value.holds, Value.holds, same]
  | .int _ | .float _ | .bool _ | .char _ | .str _ | .dict .undetermined | .none | .file _
  | .object _ | .module _ | .unit => rfl

theorem holdsItems_congr (same : g'.isWorld = g.isWorld) :
    ∀ items : List Value, holdsItems g' items = holdsItems g items
  | [] => rfl
  | v :: rest => by
    rw [holdsItems, holdsItems, Value.holds_congr same v, holdsItems_congr same rest]

theorem holdsEntries_congr (same : g'.isWorld = g.isWorld) :
    ∀ entries : List (Key × Value), holdsEntries g' entries = holdsEntries g entries
  | [] => rfl
  | (_, v) :: rest => by
    rw [holdsEntries, holdsEntries, Value.holds_congr same v, holdsEntries_congr same rest]

end

theorem ContextKind.holds_congr (same : g'.isWorld = g.isWorld) (kind : ContextKind) :
    kind.holds g' = kind.holds g := by
  cases kind with
  | world => rfl
  | call o _ | object o _ _ _ | closure o =>
    show (if g'.isWorld o then [] else [o]) = if g.isWorld o then [] else [o]
    rw [same]

end

namespace Store

variable {s : Store} {holds : List Hold} {c : CtxId}

theorem isWorld_release (s : Store) (holds : List Hold) :
    (s.release holds).graph.isWorld = s.graph.isWorld := by
  funext c
  rw [Graph.isWorld, kind?_release, Graph.isWorld]

theorem heldBy_release (s : Store) (holds : List Hold) (c : CtxId) :
    (s.release holds).heldBy c = s.heldBy c := by
  have worlds := isWorld_release s holds
  obtain ⟨live, same⟩ := context?_release s holds c
  rw [heldBy, heldBy, same]
  cases s.graph.context? c with
  | none => rfl
  | some ctx =>
    dsimp only [Option.map_some]
    rw [ContextKind.holds_congr worlds]
    refine congrArg _ (congrArg (List.flatMap · ctx.cells) (funext fun i => ?_))
    have there : (s.release holds).cell? i = s.cell? i := rfl
    rw [there]
    cases s.cell? i with
    | none => rfl
    | some cell => exact Value.holds_congr worlds cell.value

/-- A release that all living contexts survive changes nothing. -/
theorem release_eq_self
    (survive : ∀ c, s.graph.isLive c = true → c ∈ s.survivors (holds.flatMap (·.contexts s))) :
    s.release holds = s := by
  have marked (c : CtxId) (ctx : Context) (hctx : s.graph.context? c = some ctx) :
      (s.marks (s.survivors (holds.flatMap (·.contexts s)))).getD c false = ctx.live := by
    have living : s.graph.isLive c = ctx.live := by rw [Graph.isLive, hctx, Option.any_some]
    rw [Bool.eq_iff_iff, ← living, getD_marks, Bool.and_eq_true, decide_eq_true_eq,
      List.contains_iff_mem]
    exact ⟨fun h => isLive_of_mem_survivors h.2, fun h => ⟨Graph.lt_of_isLive h, survive c h⟩⟩
  have contexts : (s.release holds).graph.contexts = s.graph.contexts := by
    refine Array.ext' (List.ext_getElem? fun c => ?_)
    rw [Array.getElem?_toList, Array.getElem?_toList]
    show (Array.mapIdx _ s.graph.contexts)[c]? = s.graph.context? c
    rw [Array.getElem?_mapIdx]
    cases hctx : s.graph.context? c with
    | none => rw [show s.graph.contexts[c]? = none from hctx, Option.map_none]
    | some ctx =>
      rw [show s.graph.contexts[c]? = some ctx from hctx, Option.map_some, marked c ctx hctx]
  obtain ⟨⟨old⟩, cells, next⟩ := s
  exact congrArg (fun contexts => (⟨⟨contexts⟩, cells, next⟩ : Store)) contexts

end Store

/-- What is held from outside is not changed by a release. -/
theorem Hold.contexts_release (s : Store) (holds : List Hold) (hold : Hold) :
    hold.contexts (s.release holds) = hold.contexts s := by
  have worlds := Store.isWorld_release s holds
  cases hold with
  | context c => rfl
  | cell i => exact Value.holds_congr worlds _
  | value v => exact Value.holds_congr worlds v

/-- What has survived a release survives every later one that holds the same and more. -/
theorem Store.release_again (s : Store) (more holds : List Hold) :
    (s.release holds).release (more ++ holds) = s.release holds := by
  refine release_eq_self fun c living => ?_
  refine mem_survivors_of_held
    (P := (· ∈ s.survivors (holds.flatMap (·.contexts s)))) (fun d hd => ?_) (fun d hd => ?_)
    ((isLive_release s holds c).mp living)
  · exact (isLive_release s holds d).mpr hd
  · refine (held_of_mem_survivors hd).imp (fun root => ?_) fun ⟨e, he, held⟩ => ?_
    · obtain ⟨hold, hh, mem⟩ := List.mem_flatMap.mp root
      refine List.mem_flatMap.mpr ⟨hold, List.mem_append_right _ hh, ?_⟩
      rwa [Hold.contexts_release]
    · exact ⟨e, he, by rwa [heldBy_release]⟩

end TreeScript
