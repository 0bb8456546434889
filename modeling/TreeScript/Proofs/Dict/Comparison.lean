import TreeScript.Eval.Expr
import TreeScript.Proofs.Calls.Callee
import TreeScript.Proofs.Dict.History
import TreeScript.Proofs.Value.Equality

/-!
# Comparing dictionaries

However two dictionaries have come about, they are equal when equal values stand at the same keys.
Only two dictionaries without entries are told apart by their histories, which may have fixed
different kinds of keys.
-/
namespace TreeScript

variable {given given' : Option KeyKind} {history history' : List Dict.Event} {d e : Dict Value}

/-- What a literal gives has been written entry by entry. -/
theorem Eval.lives_entries {ev : Evaluator} {c : CtxId} : ∀ (items : List (Expr × Expr))
    {history : List Dict.Event} {d d' : Dict Value} {m m' : Machine},
    Dict.Lives given history d → entries ev c d items m = .ok d' m' →
    ∃ later, Dict.Lives given (later ++ history) d'
  | [], _, _, _, _, _, lives, done => by
    cases done
    exact ⟨[], lives⟩
  | (key, value) :: rest, history, d, d', m, m', lives, done => by
    rw [entries] at done
    obtain ⟨index, m₁, -, done⟩ := Run.bind_eq_ok done
    obtain ⟨new, m₂, -, done⟩ := Run.bind_eq_ok done
    obtain ⟨h, m₃, -, done⟩ := Run.bind_eq_ok done
    obtain ⟨k, m₄, named, done⟩ := Run.bind_eq_ok done
    have named : Value.keyOf h d index = .ok k := by
      cases result : Value.keyOf h d index with
      | ok k' =>
        rw [result] at named
        cases named
        rfl
      | error fault =>
        rw [result] at named
        cases named
    have lives := lives.asked h (.insert index new)
      (congrArg Edit.left (Dict.Request.run_insert named new))
    obtain ⟨later, lives'⟩ := lives_entries rest lives done
    exact ⟨later ++ _, by rwa [List.append_assoc]⟩

namespace Dict

theorem Proper.keyKind_eq (hd : d.Proper) (he : e.Proper)
    (keys : ∀ key, key ∈ d.keys ↔ key ∈ e.keys) (bare : d.keys = [] → d.keyKind = e.keyKind) :
    d.keyKind = e.keyKind := by
  cases there : d.keys with
  | nil => exact bare there
  | cons key rest =>
    have mem : key ∈ d.keys := there ▸ List.mem_cons_self
    rw [hd.kinds key mem, he.kinds key ((keys key).mp mem)]

/-- Two dictionaries with any histories are equal just when equal values stand at the same keys,
and, if there are none, their histories have fixed the same kind of keys or none. -/
theorem Lives.binary_eq_iff (hd : Lives given history d) (he : Lives given' history' e)
    (h : Handles) :
    Value.binary h .eq (.dict d) (.dict e) = .ok (.bool true) ↔
      (∀ key, key ∈ d.keys ↔ key ∈ e.keys) ∧
      (∀ key a b, d.get? key = some a → e.get? key = some b →
        Value.binary h .eq a b = .ok (.bool true)) ∧
      (d.keys = [] → kindOf given history = kindOf given' history') := by
  have hd := hd.accords
  have he := he.accords
  simp only [Value.binary_eq_true_iff, ← hd.kind, ← he.kind]
  rw [Value.equals_dict_iff hd.distinct he.distinct]
  constructor
  · exact fun ⟨kind, same⟩ => ⟨same.keys, same.values, fun _ => kind⟩
  · exact fun ⟨keys, values, bare⟩ => ⟨hd.proper.keyKind_eq he.proper keys bare, keys, values⟩

/-- Dictionaries that were written in different orders are equal. -/
theorem equal_in_other_order :
    let h : Handles := ⟨fun _ => "", fun _ => none, fun _ => "", fun _ => false⟩
    let d : Dict Value := .ofKind .int [(.int 1, .str "a"), (.int 2, .unit)]
    let e : Dict Value := .ofKind .int [(.int 2, .unit), (.int 1, .char 'a')]
    Value.binary h .eq (.dict d) (.dict e) = .ok (.bool true) ∧
      ∀ key, key ∈ d.keys ↔ key ∈ e.keys := by
  intro h d e
  have first := (@Lives.empty none).granted h (.insert (.int 1) (.str "a")) rfl rfl
  have hd : Lives none _ d := first.granted h (.insert (.int 2) .unit) rfl rfl
  have other := (@Lives.empty (some .int)).granted h (.insert (.int 2) .unit) rfl rfl
  have he : Lives (some .int) _ e := other.granted h (.insert (.int 1) (.char 'a')) rfl rfl
  have equal : Value.binary h .eq (.dict d) (.dict e) = .ok (.bool true) := rfl
  exact ⟨equal, ((hd.binary_eq_iff he h).mp equal).1⟩

/-- A dictionary that has been emptied is no different from a new one in its keys and values, yet
they are not equal: the kind of its keys is still fixed. -/
theorem emptied_ne_new :
    let h : Handles := ⟨fun _ => "", fun _ => none, fun _ => "", fun _ => false⟩
    let d : Dict Value := .ofKind .int []
    let e : Dict Value := .undetermined
    Lives none [.removed (.int 1), .wrote (.int 1) (.int 1)] d ∧ Lives none [] e ∧
      (∀ key, key ∈ d.keys ↔ key ∈ e.keys) ∧ (∀ key, d.get? key = none) ∧
      Value.binary h .eq (.dict d) (.dict e) = .ok (.bool false) := by
  intro h d e
  have written : Lives none [.wrote (.int 1) (.int 1)] (.ofKind .int [(.int 1, .int 1)]) :=
    Lives.empty.granted h (.insert (.int 1) (.int 1)) rfl rfl
  have removed : Lives none [.removed (.int 1), .wrote (.int 1) (.int 1)] d :=
    written.granted h (.remove (.int 1)) rfl rfl
  exact ⟨removed, .empty, fun _ => Iff.rfl, fun _ => rfl, rfl⟩

end Dict

end TreeScript
