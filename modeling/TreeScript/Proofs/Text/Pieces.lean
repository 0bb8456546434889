import Mathlib.Data.List.Infix
import TreeScript.Proofs.Calls.Callbacks

/-!
# The pieces of a text

Splitting a text takes each occurrence of the delimiter as far to the left as it can. To put the
pieces together with the delimiter between them gives the text back, but this alone does not say
where it is cut: `aaa` is `a` after an `aa` and also `a` before one. The cut has to be at the first
occurrence in what is left, each time, and then it is the only one.
-/
namespace TreeScript

namespace Text

variable {d text before after p q : List Char} {ps qs : List (List Char)} {n m : Nat}

/-- The delimiter stands at a position of the text, and at none before it. -/
structure FirstAt (d text : List Char) (n : Nat) : Prop where
  here : d <+: text.drop n
  earliest : ∀ k < n, ¬ d <+: text.drop k

theorem FirstAt.zero (here : d <+: text) : FirstAt d text 0 where
  here := here
  earliest _ lt := absurd lt (Nat.not_lt_zero _)

theorem FirstAt.next {c : Char} (here : FirstAt d text n) (not : ¬ d <+: c :: text) :
    FirstAt d (c :: text) (n + 1) where
  here := here.here
  earliest
    | 0, _ => not
    | k + 1, lt => here.earliest k (Nat.lt_of_succ_lt_succ lt)

theorem FirstAt.unique (hn : FirstAt d text n) (hm : FirstAt d text m) : n = m := by
  rcases Nat.lt_trichotomy n m with lt | eq | gt
  · exact absurd hn.here (hm.earliest n lt)
  · exact eq
  · exact absurd hm.here (hn.earliest m gt)

theorem FirstAt.occurs (here : FirstAt d text n) : d <:+: text :=
  here.here.isInfix.trans (List.drop_suffix n text).isInfix

/-- What stands before the first occurrence has none in it. -/
theorem FirstAt.free (some : d ≠ []) (here : FirstAt d (p ++ after) p.length) : ¬ d <:+: p := by
  rintro ⟨front, back, rfl⟩
  refine here.earliest front.length ?_ ?_
  · have := List.length_pos_iff.mpr some
    simp only [List.length_append]
    omega
  · simp only [List.append_assoc, List.drop_left]
    exact List.prefix_append d _

theorem breakAt_eq_none : breakAt d text = none ↔ ¬ d <:+: text := by
  induction text with
  | nil => simp [breakAt]
  | cons c text ih =>
    rw [breakAt, List.infix_cons_iff, ← List.isPrefixOf_iff_prefix]
    split
    · simp [*]
    · simp [*]

/-- Breaking a text cuts it at the first occurrence of the delimiter. -/
theorem breakAt_eq_some (found : breakAt d text = some (before, after)) :
    text = before ++ (d ++ after) ∧ FirstAt d text before.length := by
  induction text generalizing before with
  | nil =>
    rw [breakAt] at found
    split at found
    · rename_i empty
      cases found
      rw [List.isEmpty_iff.mp empty]
      exact ⟨rfl, .zero List.nil_prefix⟩
    · cases found
  | cons c text ih =>
    rw [breakAt] at found
    split at found
    · rename_i here
      cases found
      have here := List.isPrefixOf_iff_prefix.mp here
      exact ⟨(List.prefix_iff_eq_append.mp here).symm, .zero here⟩
    · rename_i not
      obtain ⟨⟨before, _⟩, found, ⟨⟩⟩ := Option.map_eq_some_iff.mp found
      obtain ⟨cut, here⟩ := ih found
      exact ⟨congrArg (c :: ·) cut, here.next (mt List.isPrefixOf_iff_prefix.mpr not)⟩

/-- The pieces of a text between occurrences of a delimiter that are all taken as far to the left
as they can be. -/
structure Leftmost (d text : List Char) (pieces : List (List Char)) : Prop where
  /-- There is a piece. -/
  nonempty : pieces ≠ []
  /-- With the delimiter between them the pieces are the text. -/
  joined : d.intercalate pieces = text
  /-- No piece has the delimiter in it. -/
  free : ∀ piece ∈ pieces, ¬ d <:+: piece
  /-- In what is left of the text after the pieces before it and their delimiters, the first
  occurrence of the delimiter is where a piece ends that is not the last. -/
  first : ∀ done piece rest, pieces = done ++ piece :: rest → rest ≠ [] →
    FirstAt d (text.drop (done.flatMap (· ++ d)).length) piece.length

namespace Leftmost

theorem last (free : ¬ d <:+: text) : Leftmost d text [text] where
  nonempty := List.cons_ne_nil _ _
  joined := List.intercalate_singleton
  free := by simpa using free
  first
    | [], _, _, rfl, more => absurd rfl more
    | _ :: _, _, _, here, _ => by simp at here

theorem cons (some : d ≠ []) (here : FirstAt d (p ++ (d ++ after)) p.length)
    (rest : Leftmost d after ps) : Leftmost d (p ++ (d ++ after)) (p :: ps) where
  nonempty := List.cons_ne_nil _ _
  joined := by
    rw [List.intercalate_cons_of_ne_nil rest.nonempty, rest.joined, List.append_assoc]
  free := List.forall_mem_cons.mpr ⟨here.free some, rest.free⟩
  first
    | [], _, _, rfl, _ => here
    | _ :: done, piece, rest', parts, more => by
      obtain ⟨rfl, tail⟩ := List.cons.inj parts
      have later := rest.first done piece rest' tail more
      simpa only [List.flatMap_cons, List.length_append, List.append_assoc,
        List.drop_length_add_append, Nat.add_assoc] using later

theorem eq_of_single (cut : Leftmost d text [p]) : p = text :=
  List.intercalate_singleton.symm.trans cut.joined

theorem free_of_single (cut : Leftmost d text [p]) : ¬ d <:+: text :=
  cut.eq_of_single ▸ cut.free p (List.mem_singleton_self p)

/-- A text with a delimiter in it is cut at the first, and what follows is decomposed again. -/
theorem uncons (cut : Leftmost d text (p :: q :: ps)) :
    ∃ after, text = p ++ (d ++ after) ∧ FirstAt d text p.length ∧ Leftmost d after (q :: ps) := by
  have joined := cut.joined
  rw [List.intercalate_cons_cons, List.append_assoc] at joined
  refine ⟨d.intercalate (q :: ps), joined.symm, cut.first [] p (q :: ps) rfl (by simp), ?_⟩
  refine ⟨List.cons_ne_nil _ _, rfl, (List.forall_mem_cons.mp cut.free).2, ?_⟩
  intro done piece rest parts more
  have later := cut.first (p :: done) piece rest (congrArg (p :: ·) parts) more
  simpa only [← joined, List.flatMap_cons, List.length_append, List.append_assoc,
    List.drop_length_add_append, Nat.add_assoc] using later

theorem occurs (cut : Leftmost d text (p :: q :: ps)) : d <:+: text :=
  (cut.first [] p (q :: ps) rfl (by simp)).occurs

/-- A text has one leftmost decomposition. -/
theorem unique (cut : Leftmost d text ps) (cut' : Leftmost d text qs) : ps = qs := by
  induction ps generalizing text qs with
  | nil => exact absurd rfl cut.nonempty
  | cons p ps ih =>
    match ps, qs with
    | _, [] => exact absurd rfl cut'.nonempty
    | [], [q] => exact congrArg ([·]) (cut.eq_of_single.trans cut'.eq_of_single.symm)
    | [], _ :: _ :: _ => exact absurd cut'.occurs cut.free_of_single
    | _ :: _, [q] => exact absurd cut.occurs cut'.free_of_single
    | p' :: ps, q :: q' :: qs =>
      obtain ⟨after, rfl, here, rest⟩ := cut.uncons
      obtain ⟨after', same, here', rest'⟩ := cut'.uncons
      -- Both are cut at the first occurrence, so the same is left to both.
      obtain ⟨rfl, left⟩ := List.append_inj same (here.unique here')
      obtain rfl := List.append_cancel_left left
      rw [ih rest rest']

end Leftmost

/-- Splitting gives the leftmost decomposition. -/
theorem leftmost_split (some : d ≠ []) (text : List Char) :
    Leftmost d text (split d some text) := by
  fun_induction split d some text with
  | case1 text none => exact .last (breakAt_eq_none.mp none)
  | case2 text before after found ih =>
    obtain ⟨rfl, here⟩ := breakAt_eq_some found
    exact .cons some here ih

end Text

/-- The values that delimit, and the text that each of them stands for. -/
inductive Value.Delimits : Value → List Char → Prop
  | char (c : Char) : Delimits (.char c) [c]
  | text {s : String} (some : s ≠ "") : Delimits (.str s) s.toList

namespace Member.Chars

variable {v : Value} {d : List Char}

theorem delimiter_of_delimits (delimits : v.Delimits d) : ∃ some, delimiter v = .ok ⟨d, some⟩ := by
  cases delimits with
  | char c => exact ⟨List.cons_ne_nil _ _, rfl⟩
  | text some =>
    have some := mt String.toList_eq_nil_iff.mp some
    exact ⟨some, dif_pos some⟩

/-- What does not delimit is refused for its type. -/
theorem delimiter_of_not_delimits (not : ∀ d, ¬ v.Delimits d) :
    ∃ fault, fault.category = .type ∧ delimiter v = .error fault := by
  refine ⟨.invalidArgument "split" "a non-empty str or char delimiter", rfl, ?_⟩
  cases v with
  | char c => exact absurd (.char c) (not _)
  | str s =>
    rw [delimiter, dif_neg]
    exact fun some => not _ (.text (mt String.toList_eq_nil_iff.mpr some))
  | _ => rfl

end Member.Chars

namespace Eval

/-- **Splitting.** A text that is split by a character or by some text gives its leftmost
decomposition, which is the only one; by anything else it is not split. -/
theorem split_leftmost (ev : Evaluator) (receiver : Place) (args : List Arg) (c : CtxId)
    (span : Span) (m : Machine) (s : String) (v : Value) (read : receiver.read m = .ok (.str s) m)
    (given : args.map (·.value) = [v]) :
    (∀ d, v.Delimits d → ∃ pieces, Text.Leftmost d s.toList pieces ∧
      (∀ others, Text.Leftmost d s.toList others → others = pieces) ∧
      callMember ev receiver "split" args c span m = .ok (.list (pieces.map .ofChars)) m) ∧
    ((∀ d, ¬ v.Delimits d) → ∃ fault, fault.category = .type ∧
      callMember ev receiver "split" args c span m = .error (m.raised fault) m) := by
  rw [callMember_of_read c read rfl, given]
  refine ⟨fun d delimits => ?_, fun not => ?_⟩
  · obtain ⟨some, given⟩ := Member.Chars.delimiter_of_delimits delimits
    have cut := Text.leftmost_split some s.toList
    refine ⟨_, cut, fun _ other => other.unique cut, ?_⟩
    rw [Member.Chars.split, given]
    rfl
  · obtain ⟨fault, type, given⟩ := Member.Chars.delimiter_of_not_delimits not
    refine ⟨fault, type, ?_⟩
    rw [Member.Chars.split, given]
    rfl

/-- Of the two places where the delimiter stands, which overlap, the left one is taken. -/
theorem split_at_overlap :
    let m := Machine.start .empty .silent [] none
    let text := Place.ofValue (.str "ééé")
    let args := [Arg.ofValue (.str "éé")]
    text.read m = .ok (.str "ééé") m ∧ Value.Delimits (.str "éé") ['é', 'é'] ∧
      callMember (evaluator ⟨[], none⟩ 0) text "split" args 0 ⟨0, 1⟩ m =
        .ok (.list [.str "", .str "é"]) m := by
  intro m text args
  have delimits : Value.Delimits (.str "éé") ['é', 'é'] := .text (by decide)
  obtain ⟨pieces, -, only, result⟩ :=
    (split_leftmost (evaluator ⟨[], none⟩ 0) text args 0 ⟨0, 1⟩ m "ééé" (.str "éé") rfl rfl).1 _
      delimits
  have cut : Text.Leftmost ['é', 'é'] ([] ++ (['é', 'é'] ++ ['é'])) [[], ['é']] :=
    .cons (by decide) (.zero (List.prefix_append _ _)) (.last (by decide))
  rw [← only _ cut] at result
  exact ⟨rfl, delimits, result⟩

end Eval

end TreeScript
