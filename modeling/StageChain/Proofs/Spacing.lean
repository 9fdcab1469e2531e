import Mathlib.Data.List.Chain
import StageChain.Proofs.LineByLine

/-! Tokens that are written one behind the other are found again, whatever filler stands around
them. Only between two numbers some filler is needed, since their digits would run together. -/
namespace StageChain
namespace Token

/-- A text that starts with filler and goes on with tokens, each with the filler behind it. -/
def spaced (lead : List Char) (words : List (Token × List Char)) : List Char :=
  lead ++ words.flatMap fun word => word.1.lexeme ++ word.2

/-- Tokens that some text scans to, with nothing but filler around them. -/
structure IsSpacing (lead : List Char) (words : List (Token × List Char)) : Prop where
  written : ∀ word ∈ words, word.1.IsWritten
  lead : ∀ c ∈ lead, IsFiller c
  gaps : ∀ word ∈ words, ∀ c ∈ word.2, IsFiller c

/-- No two numbers follow each other without filler between them. -/
def NumbersApart (words : List (Token × List Char)) : Prop :=
  words.IsChain fun word next => word.1.isNumber → next.1.isNumber → word.2 ≠ []

instance (words : List (Token × List Char)) : Decidable (NumbersApart words) :=
  inferInstanceAs (Decidable (words.IsChain _))

theorem startsWithDigit_filler {c : Char} (h : IsFiller c) (s : List Char) :
    startsWithDigit (c :: s) = false := h.1

theorem scan_append_of_filler {gap : List Char} (h : ∀ c ∈ gap, IsFiller c) (s : List Char) :
    scan (gap ++ s) = scan s := by
  induction gap with
  | nil => rfl
  | cons c gap ih =>
      obtain ⟨first, others⟩ := List.forall_mem_cons.mp h
      have single : scan (c :: (gap ++ s)) = scan (gap ++ s) := by
        have split := scan_append_filler first [] (gap ++ s)
        rwa [scan_nil, List.nil_append, List.nil_append] at split
      rw [List.cons_append, single, ih others]

theorem exists_leading?_lexeme {t : Token} (written : t.IsWritten) (rest : List Char) :
    ∃ t', leading? (t.lexeme ++ rest) = some t' := by
  by_cases ends : t.EndsBefore rest
  · exact ⟨t, leading?_lexeme written ends⟩
  · have number : t.isNumber := by
      apply Classical.byContradiction
      intro fixed
      exact ends (endsBefore_iff.mpr fun number => absurd number fixed)
    rw [← startsWithDigit_lexeme written rest] at number
    exact ⟨_, leading?_of_startsWithDigit number⟩

/-- A written token is found again exactly if what follows does not go on with its digits. -/
theorem scan_lexeme_eq_cons_iff {t : Token} (written : t.IsWritten) {rest : List Char}
    {ts : List Token} :
    scan (t.lexeme ++ rest) = t :: ts ↔ t.EndsBefore rest ∧ scan rest = ts := by
  constructor
  · intro h
    obtain ⟨t', found⟩ := exists_leading?_lexeme written rest
    have ends : t.EndsBefore rest := by
      -- The first token of a scan is the one at the start, with all the digits that it can have.
      obtain ⟨c, s, spelled⟩ := List.exists_cons_of_ne_nil
        (List.append_ne_nil_of_left_ne_nil (lexeme_ne_nil written) rest)
      rw [spelled] at h found
      rw [scan_of_leading? found] at h
      cases h
      obtain ⟨rest', same, _, ends⟩ := leading?_eq_some_iff.mp found
      rw [← spelled] at same
      rwa [List.append_cancel_left same]
    rw [scan_lexeme written ends] at h
    exact ⟨ends, List.tail_eq_of_cons_eq h⟩
  · rintro ⟨ends, rfl⟩
    exact scan_lexeme written ends

/-- What follows the first token does not go on with its digits, exactly if it is not a number that
follows a number at once. -/
theorem endsBefore_gap_iff {t : Token} {gap : List Char} {words : List (Token × List Char)}
    (filler : ∀ c ∈ gap, IsFiller c) (written : ∀ word ∈ words, word.1.IsWritten) :
    t.EndsBefore (spaced gap words) ↔
      ∀ next ∈ words.head?, t.isNumber → next.1.isNumber → gap ≠ [] := by
  rw [endsBefore_iff]
  cases gap with
  | cons c gap =>
      have separated : startsWithDigit (spaced (c :: gap) words) = false :=
        startsWithDigit_filler (filler c List.mem_cons_self) _
      exact ⟨fun _ _ _ _ _ => List.cons_ne_nil c gap, fun _ _ => separated⟩
  | nil =>
      cases words with
      | nil => exact ⟨fun _ _ mem => absurd mem (Option.not_mem_none _), fun _ _ => rfl⟩
      | cons next words =>
          have start : startsWithDigit (spaced [] (next :: words)) = next.1.isNumber := by
            rw [spaced, List.nil_append, List.flatMap_cons, List.append_assoc]
            exact startsWithDigit_lexeme (written next List.mem_cons_self) _
          rw [start]
          simp only [List.head?_cons, Option.mem_some_iff, forall_eq', ne_eq, not_true_eq_false,
            Bool.not_eq_true, imp_false]

/-- Filler neither joins nor cuts tokens: written with filler, tokens are found again exactly if no
two numbers follow each other at once. -/
theorem scan_spaced_iff {lead : List Char} {words : List (Token × List Char)}
    (h : IsSpacing lead words) :
    scan (spaced lead words) = words.map Prod.fst ↔ NumbersApart words := by
  induction words generalizing lead with
  | nil =>
      rw [spaced, scan_append_of_filler h.lead]
      exact ⟨fun _ => .nil, fun _ => scan_nil⟩
  | cons word words ih =>
      obtain ⟨t, gap⟩ := word
      obtain ⟨written, others⟩ := List.forall_mem_cons.mp h.written
      obtain ⟨filler, gaps⟩ := List.forall_mem_cons.mp h.gaps
      have text : spaced lead ((t, gap) :: words) = lead ++ (t.lexeme ++ spaced gap words) := by
        simp only [spaced, List.flatMap_cons, List.append_assoc]
      rw [text, scan_append_of_filler h.lead, List.map_cons, scan_lexeme_eq_cons_iff written,
        ih ⟨others, filler, gaps⟩, endsBefore_gap_iff filler others, NumbersApart, NumbersApart,
        List.isChain_cons]

theorem isFiller_space : IsFiller ' ' := by decide

theorem scan_lexeme_alone {t : Token} (written : t.IsWritten) : scan t.lexeme = [t] := by
  have ends : t.EndsBefore [] := endsBefore_iff.mpr fun _ => rfl
  have found := scan_lexeme written ends
  rwa [List.append_nil, scan_nil] at found

theorem scan_intercalate_space {ts : List Token} (written : ∀ t ∈ ts, t.IsWritten) :
    scan ([' '].intercalate (ts.map lexeme)) = ts := by
  induction ts with
  | nil => exact scan_nil
  | cons t ts ih =>
      obtain ⟨first, others⟩ := List.forall_mem_cons.mp written
      cases ts with
      | nil =>
          rw [List.map_cons, List.map_nil, List.intercalate_singleton, scan_lexeme_alone first]
      | cons next ts =>
          rw [List.map_cons, List.map_cons, List.intercalate_cons_cons, List.append_assoc,
            List.singleton_append, scan_append_filler isFiller_space, scan_lexeme_alone first,
            ← List.map_cons, ih others, List.singleton_append]

/-- The simple view of a source's tokens is a source with the same tokens. -/
theorem scan_render_tokens (o : Options) (source : String) :
    ∃ text, View.render ⟨.tokens, .simple⟩ o source = .ok text ∧
      scan text.toList = scan source.toList := by
  refine ⟨_, rfl, ?_⟩
  rw [String.toList_ofList]
  exact scan_intercalate_space (isWritten_of_mem_scan source.toList)

theorem compile_congr {s s' : List Char} (h : scan s = scan s') (o : Options) :
    compile o (String.ofList s) = compile o (String.ofList s') := by
  have views : View.render ⟨.canonical, .simple⟩ o (String.ofList s) =
      View.render ⟨.canonical, .simple⟩ o (String.ofList s') := by
    apply View.render_congr
    rw [String.toList_ofList, String.toList_ofList, h]
  exact Except.ok.inj views

/-- Scanning undoes writing tokens with filler, except where two numbers follow each other at once.
So the simple view of a source's tokens scans to these tokens, and which filler is used makes no
difference to compiling. -/
theorem scan_undoes_spacing {lead : List Char} {words : List (Token × List Char)}
    (spacing : IsSpacing lead words) :
    (NumbersApart words ↔ scan (spaced lead words) = words.map Prod.fst) ∧
      (∀ (o : Options) (source : String),
        ∃ text, View.render ⟨.tokens, .simple⟩ o source = .ok text ∧
          scan text.toList = scan source.toList) ∧
      (NumbersApart words → ∀ lead' words', IsSpacing lead' words' → NumbersApart words' →
        words'.map Prod.fst = words.map Prod.fst → ∀ o : Options,
          compile o (String.ofList (spaced lead' words')) =
            compile o (String.ofList (spaced lead words))) := by
  refine ⟨(scan_spaced_iff spacing).symm, scan_render_tokens, ?_⟩
  intro apart lead' words' spacing' apart' same
  apply compile_congr
  rw [(scan_spaced_iff spacing').mpr apart', (scan_spaced_iff spacing).mpr apart, same]

/-- Keywords, operators and numbers follow each other at once, and two numbers with filler between
them. Without it, the two numbers are not found again. -/
theorem scan_undoes_spacing_adjacent :
    let words : List (Token × List Char) := [(pipe, []), (greater, []), (element, []),
      (element, []), (number ['1', '2'], ['\t', 'x']), (number ['0'], []), (closeBrace, [])]
    let joined : List (Token × List Char) := [(number ['1', '2'], []), (number ['0'], [])]
    IsSpacing ['é'] words ∧ scan (spaced ['é'] words) = words.map Prod.fst ∧
      IsSpacing [] joined ∧ scan (spaced [] joined) ≠ joined.map Prod.fst := by
  intro words joined
  have spacing : IsSpacing ['é'] words := by
    refine ⟨by decide, List.forall_mem_singleton.mpr (by decide), ?_⟩
    simp only [words, List.forall_mem_cons, List.not_mem_nil, false_implies, implies_true, and_true,
      true_and]
    decide
  have spacing' : IsSpacing [] joined := by
    refine ⟨by decide, fun _ mem => absurd mem List.not_mem_nil, ?_⟩
    simp only [joined, List.forall_mem_cons, List.not_mem_nil, false_implies, implies_true,
      and_true]
  have apart : NumbersApart words := by decide
  have together : ¬ NumbersApart joined := by decide
  exact ⟨spacing, (scan_undoes_spacing spacing).1.mp apart, spacing',
    mt (scan_undoes_spacing spacing').1.mpr together⟩

end Token
end StageChain
