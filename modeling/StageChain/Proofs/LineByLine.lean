import StageChain.Proofs.Scanning
import StageChain.View

/-! The lines of a text are shown one by one, and none has any influence on another. So two texts
that are joined by a line feed show what they show by themselves, and only the lines of the second
one get other numbers. The carriage return that the line feed takes with it is part of no token, and
its loss does not show either. -/
namespace StageChain

namespace Lines

theorem isSpace_return : isSpace '\x0d' = true := by decide

theorem eq_dropReturn_or (line : List Char) :
    line = dropReturn line ∨ line = dropReturn line ++ ['\x0d'] := by
  unfold dropReturn
  split
  · rename_i last
    obtain ⟨kept, rfl⟩ := List.getLast?_eq_some_iff.mp last
    exact .inr (congrArg (· ++ ['\x0d']) List.dropLast_concat.symm)
  · exact .inl rfl

theorem isBlank_dropReturn (line : List Char) : isBlank (dropReturn line) = isBlank line := by
  rcases eq_dropReturn_or line with kept | dropped
  · rw [← kept]
  · conv_rhs => rw [dropped]
    simp only [isBlank, List.all_append, List.all_cons, List.all_nil, isSpace_return, Bool.and_true]

theorem splitFrom_cons {c : Char} (h : c ≠ '\n') (line rest : List Char) :
    splitFrom line (c :: rest) = splitFrom (c :: line) rest := by
  rw [splitFrom]
  exact h

/-- A text without line feeds is a single line. -/
theorem splitFrom_of_not_mem {s : List Char} (h : '\n' ∉ s) (line : List Char) :
    splitFrom line s = splitFrom (s.reverse ++ line) [] := by
  induction s generalizing line with
  | nil => rfl
  | cons c s ih =>
      have other : c ≠ '\n' := (List.ne_of_not_mem_cons h).symm
      rw [splitFrom_cons other, ih (List.not_mem_of_not_mem_cons h), List.reverse_cons,
        List.append_assoc, List.singleton_append]

end Lines

theorem Token.isFiller_return : IsFiller '\x0d' := by decide

namespace View

variable (v : View) (o : Options)

/-- A view shows nothing of a source but its tokens. -/
theorem render_congr {source other : String}
    (h : Token.scan source.toList = Token.scan other.toList) :
    v.render o source = v.render o other := by
  obtain ⟨subject, layout⟩ := v
  cases subject with
  | tokens => simp only [render, h]
  | tree => simp only [render, Chain.parse, h]
  | canonical => cases layout <;> simp only [render, compile, compile?, h]

theorem render_dropReturn (line : List Char) :
    v.render o (String.ofList (Lines.dropReturn line)) = v.render o (String.ofList line) := by
  apply render_congr
  rw [String.toList_ofList, String.toList_ofList]
  rcases Lines.eq_dropReturn_or line with kept | dropped
  · rw [← kept]
  · conv_rhs => rw [dropped, Token.scan_append_filler Token.isFiller_return, Token.scan_nil,
      List.append_nil]

/-- What a line adds to the outcomes: nothing if it is blank. -/
def outcome (n : Nat) (line : List Char) : List (Nat × Except ViewError String) :=
  if Lines.isBlank line then [] else [(n, v.render o (String.ofList line))]

/-- The outcomes of lines of which the first one has the given number. -/
def outcomes : Nat → List (List Char) → List (Nat × Except ViewError String)
  | _, [] => []
  | n, line :: rest => v.outcome o n line ++ outcomes (n + 1) rest

theorem renderLines_eq (text : String) :
    v.renderLines o text = v.outcomes o 1 (Lines.split text.toList) := by
  rw [renderLines, Lines.numbered]
  generalize Lines.split text.toList = lines
  generalize 1 = n
  induction lines generalizing n with
  | nil => rfl
  | cons line rest ih =>
      rw [List.zipIdx_cons, List.filterMap_cons, outcomes, outcome, ← ih (n + 1)]
      cases blank : Lines.isBlank line with
      | true => simp only [blank, ↓reduceIte, List.nil_append]
      | false => simp only [blank, Bool.false_eq_true, ↓reduceIte, List.map_cons, List.singleton_append]

theorem outcome_dropReturn (n : Nat) (line : List Char) :
    v.outcome o n (Lines.dropReturn line) = v.outcome o n line := by
  simp only [outcome, Lines.isBlank_dropReturn, render_dropReturn]

theorem outcome_add (n k : Nat) (line : List Char) :
    v.outcome o (n + k) line = (v.outcome o n line).map (Prod.map (· + k) id) := by
  unfold outcome
  split
  · rfl
  · rfl

theorem outcomes_add (n k : Nat) (lines : List (List Char)) :
    v.outcomes o (n + k) lines = (v.outcomes o n lines).map (Prod.map (· + k) id) := by
  induction lines generalizing n with
  | nil => rfl
  | cons line rest ih =>
      rw [outcomes, outcomes, List.map_append, ← outcome_add, ← ih (n + 1), Nat.add_right_comm]

/-- An end of text and a line feed do the same to the line before them. -/
theorem outcomes_splitFrom_nil (n : Nat) (line : List Char) :
    v.outcomes o n (Lines.splitFrom line []) = v.outcome o n (Lines.dropReturn line.reverse) := by
  rw [outcome_dropReturn]
  cases line with
  | nil => rfl
  | cons c line => exact List.append_nil _

/-- The induction follows the first text, with the line and the number it has come to. -/
theorem outcomes_splitFrom (a b line : List Char) (n : Nat) :
    v.outcomes o n (Lines.splitFrom line (a ++ '\n' :: b)) =
      v.outcomes o n (Lines.splitFrom line a) ++
        v.outcomes o (n + (a.count '\n' + 1)) (Lines.split b) := by
  induction a generalizing line n with
  | nil =>
      rw [outcomes_splitFrom_nil, List.nil_append, Lines.splitFrom, outcomes, List.count_nil,
        Nat.zero_add, Lines.split]
  | cons c a ih =>
      by_cases feed : c = '\n'
      · subst feed
        have number : n + ((('\n' :: a).count '\n') + 1) = (n + 1) + (a.count '\n' + 1) := by
          rw [List.count_cons_self]
          omega
        rw [number, List.cons_append, Lines.splitFrom, Lines.splitFrom, outcomes, outcomes, ih [],
          List.append_assoc]
      · rw [List.cons_append, Lines.splitFrom_cons feed, Lines.splitFrom_cons feed, ih,
          List.count_cons_of_ne feed]

theorem outcomes_split_of_not_mem {line : List Char} (h : '\n' ∉ line) (n : Nat) :
    v.outcomes o n (Lines.split line) = v.outcome o n line := by
  rw [Lines.split, Lines.splitFrom_of_not_mem h, List.append_nil, outcomes_splitFrom_nil,
    List.reverse_reverse, outcome_dropReturn]

theorem renderFile_toUTF8 (text : String) :
    v.renderFile o (.ok text.toUTF8) = .ok (v.outcomes o 1 (Lines.split text.toList)) := by
  have read : String.fromUTF8? text.toUTF8 = some text := dif_pos text.isValidUTF8
  simp only [renderFile, read, renderLines_eq]

/-- The outcomes of two texts that are joined by a line feed are those of the one and then those of
the other, whose numbers go on where the first text ends. A text without line feeds has one outcome,
its own view, unless it is blank. -/
theorem renderFile_append_newline (a b : String) :
    (∃ first second,
      v.renderFile o (.ok a.toUTF8) = .ok first ∧
      v.renderFile o (.ok b.toUTF8) = .ok second ∧
      v.renderFile o (.ok (a ++ "\n" ++ b).toUTF8) =
        .ok (first ++ second.map (Prod.map (· + (a.toList.count '\n' + 1)) id))) ∧
    ∀ line : String, '\n' ∉ line.toList →
      v.renderFile o (.ok line.toUTF8) =
        .ok (if Lines.isBlank line.toList then [] else [(1, v.render o line)]) := by
  constructor
  · refine ⟨_, _, renderFile_toUTF8 v o a, renderFile_toUTF8 v o b, ?_⟩
    have feed : "\n".toList = ['\n'] := rfl
    have text : (a ++ "\n" ++ b).toList = a.toList ++ '\n' :: b.toList := by
      rw [String.toList_append, String.toList_append, feed, List.append_assoc, List.singleton_append]
    rw [renderFile_toUTF8, text, ← outcomes_add]
    exact congrArg Except.ok (outcomes_splitFrom v o a.toList b.toList [] 1)
  · intro line single
    rw [renderFile_toUTF8, outcomes_split_of_not_mem v o single, outcome, String.ofList_toList]

/-- The first line loses its carriage return to the line feed and shows what it shows with it. The
second one fails, which changes nothing for the first. -/
theorem renderFile_append_newline_return :
    let v : View := ⟨.canonical, .json⟩
    let a := "map\x7belement\x7d\x0d"
    let b := "map\x7b"
    '\n' ∉ a.toList ∧ '\n' ∉ b.toList ∧
      v.renderFile {} (.ok (a ++ "\n" ++ b).toUTF8) =
        .ok [(1, v.render {} a), (2, v.render {} b)] := by
  intro v a b
  have singleA : '\n' ∉ a.toList := by decide
  have singleB : '\n' ∉ b.toList := by decide
  obtain ⟨⟨first, second, shownA, shownB, joined⟩, alone⟩ := renderFile_append_newline v {} a b
  have lineA : v.renderFile {} (.ok a.toUTF8) = .ok [(1, v.render {} a)] :=
    (alone a singleA).trans (congrArg Except.ok (if_neg (by decide)))
  have lineB : v.renderFile {} (.ok b.toUTF8) = .ok [(1, v.render {} b)] :=
    (alone b singleB).trans (congrArg Except.ok (if_neg (by decide)))
  cases lineA.symm.trans shownA
  cases lineB.symm.trans shownB
  rw [List.count_eq_zero.mpr singleA] at joined
  exact ⟨singleA, singleB, joined⟩

end View
end StageChain
