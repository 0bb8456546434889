import TreeScript.Proofs.Value.Arithmetic
import TreeScript.Proofs.Value.Sequences

/-!
# Sums

The member `sum` of lists adds with code of its own, apart from the operators. It gives what adding
with `+` gives, from zero on and from the left. A sum of integers does not hang on their order, and
the sum of a list with anything else in it than numbers fails, wherever that stands.
-/
namespace TreeScript

namespace Member.Items

variable {h : Handles} {total v : Value} {items : List Value}

/-- The fault of a sum that meets something that is no number. -/
def noNumber : Fault := .invalidArgument "sum" "a list of numbers"

/-- Numbers are added to a sum as the operator adds them, and that never fails. -/
theorem exists_addTo (ht : total.kind.isNumeric = true) (hv : v.kind.isNumeric = true) :
    ∃ next, addTo total v = .ok next ∧ Value.binary h .add total v = .ok next ∧
      next.kind.isNumeric = true := by
  cases total with
  | int a | float a =>
    cases v with
    | int b | float b => exact ⟨_, rfl, rfl, rfl⟩
    | _ => cases hv
  | _ => cases ht

theorem addTo_refused (total : Value) (hv : v.kind.isNumeric = false) :
    addTo total v = .error noNumber := by
  cases v with
  | int | float => cases hv
  | _ => cases total <;> rfl

/-- An item is added, or it is refused with the same fault whatever it is. -/
theorem addTo_cases (total v : Value) :
    (∃ next, addTo total v = .ok next) ∨ addTo total v = .error noNumber := by
  unfold addTo
  split
  · exact .inl ⟨_, rfl⟩
  · exact .inl ⟨_, rfl⟩
  · exact .inl ⟨_, rfl⟩
  · exact .inl ⟨_, rfl⟩
  · exact .inr rfl

/-- A sum of numbers is what adding one after the other with the operator gives. -/
theorem exists_sumFrom (ht : total.kind.isNumeric = true)
    (numbers : ∀ v ∈ items, v.kind.isNumeric = true) :
    ∃ sum, sumFrom total items = .ok sum ∧ items.foldlM (Value.binary h .add) total = .ok sum ∧
      sum.kind.isNumeric = true := by
  induction items generalizing total with
  | nil => exact ⟨total, rfl, rfl, ht⟩
  | cons v rest ih =>
    obtain ⟨first, others⟩ := List.forall_mem_cons.mp numbers
    obtain ⟨next, added, plus, hn⟩ := exists_addTo (h := h) ht first
    obtain ⟨sum, summed, folded, hs⟩ := ih hn others
    refine ⟨sum, ?_, ?_, hs⟩
    · rw [sumFrom, added]
      exact summed
    · rw [List.foldlM_cons, plus]
      exact folded

theorem sumFrom_refused (there : v ∈ items) (hv : v.kind.isNumeric = false) (total : Value) :
    sumFrom total items = .error noNumber := by
  induction items generalizing total with
  | nil => cases there
  | cons first rest ih =>
    rw [sumFrom]
    rcases addTo_cases total first with ⟨next, added⟩ | refused
    · rw [added]
      rcases List.mem_cons.mp there with rfl | later
      · cases added.symm.trans (addTo_refused total hv)
      · exact ih later next
    · rw [refused]

/-- Words wrap at each addition, and their sum is that of the integers, wrapped once. -/
theorem givesInt_sumFrom (a : Int64) (ns : List Int64) :
    Value.GivesInt (sumFrom (.int a) (ns.map .int))
      ((a.toInt + (ns.map Int64.toInt).sum).bmod (2 ^ 64)) := by
  induction ns generalizing a with
  | nil =>
    refine ⟨a, rfl, ?_⟩
    rw [List.map_nil, List.sum_nil, Int.add_zero]
    exact a.toInt_bmod.symm
  | cons b ns ih =>
    obtain ⟨sum, summed, wrapped⟩ := ih (a + b)
    refine ⟨sum, summed, wrapped.trans ?_⟩
    rw [Int64.toInt_add, Int.bmod_add_bmod, List.map_cons, List.sum_cons, Int.add_assoc]

end Member.Items

namespace Value

/-- Computations that give the same integer give the same value. -/
theorem GivesInt.eq {x y : Except Fault Value} {n : Int} (hx : GivesInt x n) (hy : GivesInt y n) :
    x = y := by
  obtain ⟨a, rfl, ha⟩ := hx
  obtain ⟨b, rfl, hb⟩ := hy
  rw [Int64.toInt_inj.mp (ha.trans hb.symm)]

/-- **Sums.** The sum of a list of numbers is what adding them with `+` gives, from the left and
from zero on, and it is a number. The sum of integers is that of the integers they stand for,
reduced to the word, in whatever order they come. The sum of a list with anything else in it is a
type error. A program that asks for the sum of a list gets just this. -/
theorem sum_agrees_with_addition (h : Handles) (items : List Value) :
    ((∀ v ∈ items, v.kind.isNumeric = true) →
      (list items).ask h "sum" [] = items.foldlM (binary h .add) (int 0) ∧
        ∃ total, (list items).ask h "sum" [] = .ok total ∧ total.kind.isNumeric = true) ∧
    (∀ ns : List Int64, items = ns.map int →
      GivesInt ((list items).ask h "sum" []) ((ns.map Int64.toInt).sum.bmod (2 ^ 64)) ∧
        ∀ ns' : List Int64, ns'.Perm ns →
          (list (ns'.map int)).ask h "sum" [] = (list items).ask h "sum" []) ∧
    (∀ v ∈ items, v.kind.isNumeric = false →
      ∃ fault, (list items).ask h "sum" [] = .error fault ∧ fault.category = .type) ∧
    ∀ (ev : Evaluator) (receiver : Place) (c : CtxId) (span : Span) (m : Machine),
      receiver.read m = .ok (list items) m →
      Eval.callMember ev receiver "sum" [] c span m =
        Run.ofExcept ((list items).ask m.handles "sum" []) m := by
  have opened (items : List Value) (h : Handles) :
      (list items).ask h "sum" [] = Member.Items.sumFrom (int 0) items := rfl
  refine ⟨?numbers, ?integers, ?others, ?runs⟩
  case numbers =>
    intro numbers
    have zero : (int 0).kind.isNumeric = true := rfl
    obtain ⟨sum, summed, folded, number⟩ := Member.Items.exists_sumFrom (h := h) zero numbers
    exact ⟨summed.trans folded.symm, sum, summed, number⟩
  case integers =>
    rintro ns rfl
    have gives (ns : List Int64) :
        GivesInt ((list (ns.map int)).ask h "sum" []) ((ns.map Int64.toInt).sum.bmod (2 ^ 64)) := by
      have summed := Member.Items.givesInt_sumFrom 0 ns
      rwa [Int64.toInt_zero, Int.zero_add] at summed
    refine ⟨gives ns, fun ns' perm => ?_⟩
    have same : (ns'.map Int64.toInt).sum = (ns.map Int64.toInt).sum :=
      (perm.map Int64.toInt).sum_eq
    exact (same ▸ gives ns').eq (gives ns)
  case others =>
    intro v there other
    exact ⟨_, Member.Items.sumFrom_refused there other (int 0), rfl⟩
  case runs =>
    intro ev receiver c span m read
    have found : Member.find? (list items).kind "sum" =
        Option.some (Member.read Member.Items.sum) := rfl
    exact Eval.callMember_of_read c read found

/-- Integers before the first float wrap before they are converted. Integers alone give the same in
any order. A text is refused behind numbers as it is before them. -/
theorem sum_of_late_float :
    let h : Handles := ⟨fun _ => "", fun _ => Option.none, fun _ => "", fun _ => false⟩
    let greatest := Int64.maxValue
    (list [int greatest, int 1, float 0.5]).ask h "sum" [] =
        .ok (float (Int64.minValue.toFloat + 0.5)) ∧
      GivesInt ((list [int greatest, int 1, int (-2)]).ask h "sum" []) (greatest.toInt - 1) ∧
      (list [int 1, int (-2), int greatest]).ask h "sum" [] =
        (list [int greatest, int 1, int (-2)]).ask h "sum" [] ∧
      (∃ fault, (list [int 1, float 0.5, str "2"]).ask h "sum" [] = .error fault ∧
        fault.category = .type) := by
  intro h greatest
  obtain ⟨late, -⟩ := sum_agrees_with_addition h [int greatest, int 1, float 0.5]
  obtain ⟨-, integers, -⟩ := sum_agrees_with_addition h [int greatest, int 1, int (-2)]
  obtain ⟨-, -, others, -⟩ := sum_agrees_with_addition h [int 1, float 0.5, str "2"]
  obtain ⟨sums, anyOrder⟩ := integers [greatest, 1, -2] rfl
  have whole : (([greatest, 1, -2] : List Int64).map Int64.toInt).sum.bmod (2 ^ 64) =
      greatest.toInt - 1 := by decide
  have perm : ([1, -2] ++ [greatest]).Perm ([greatest] ++ [1, -2]) := List.perm_append_comm
  have wrapped : 0 + greatest + 1 = Int64.minValue := by decide
  refine ⟨?_, whole ▸ sums, anyOrder _ perm, ?_⟩
  · rw [(late (by simp [kind, Kind.isNumeric])).1, ← wrapped]
    rfl
  · exact others (str "2") (by simp) rfl

end Value

end TreeScript
