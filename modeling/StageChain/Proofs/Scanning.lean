import Mathlib.Data.List.Find
import StageChain.Token

/-! Scanning finds a written token again, whatever text follows it. Only a number needs a
following text that does not go on with digits. A character that is part of no token splits a
text into two that are scanned one after the other. -/
namespace StageChain

/-- Where a text begins has no influence on its tokens. -/
theorem Span.map_token_scan (offset other : Nat) (s : List Char) :
    (Span.scan offset s).map Span.token = (Span.scan other s).map Span.token := by
  fun_induction Span.scan offset s generalizing other with
  | case1 => simp only [Span.scan]
  | case2 offset c rest t found stop ih =>
      simp only [Span.scan, found, List.map_cons]
      exact congrArg (t :: ·) (ih _)
  | case3 offset c rest none ih =>
      simp only [Span.scan, none]
      exact ih _

def startsWithDigit (s : List Char) : Bool := s.head?.any Char.isDigit

namespace Token

def isNumber : Token → Bool
  | number _ => true
  | _ => false

/-- A number is made of digits, one or more. No text scans to any other number. -/
def IsWritten : Token → Prop
  | number text => text ≠ [] ∧ ∀ c ∈ text, c.isDigit
  | _ => True

/-- No digit can be added to the token by what follows it. -/
def EndsBefore (s : List Char) : Token → Prop
  | number _ => startsWithDigit s = false
  | _ => True

theorem endsBefore_iff {t : Token} {s : List Char} :
    t.EndsBefore s ↔ (t.isNumber → startsWithDigit s = false) := by
  cases t with
  | number text => exact ⟨fun h _ => h, fun h => h rfl⟩
  | _ => exact ⟨fun _ h => absurd h Bool.false_ne_true, fun _ => trivial⟩

theorem startsWithDigit_lexeme {t : Token} (written : t.IsWritten) (rest : List Char) :
    startsWithDigit (t.lexeme ++ rest) = t.isNumber := by
  cases t with
  | number text =>
      obtain ⟨c, digits, rfl⟩ := List.exists_cons_of_ne_nil written.1
      exact written.2 c List.mem_cons_self
  | _ => rfl

theorem isNumber_of_mem_fixed : ∀ t ∈ fixed, t.isNumber = false := by
  decide

theorem isWritten_of_mem_fixed {t : Token} (h : t ∈ fixed) : t.IsWritten := by
  cases t with
  | number text => cases isNumber_of_mem_fixed _ h
  | _ => trivial

theorem endsBefore_of_mem_fixed {t : Token} (h : t ∈ fixed) (rest : List Char) :
    t.EndsBefore rest := by
  apply endsBefore_iff.mpr
  intro number
  rw [isNumber_of_mem_fixed t h] at number
  cases number

theorem startsWithDigit_fixed {t : Token} (h : t ∈ fixed) (rest : List Char) :
    startsWithDigit (t.lexeme ++ rest) = false := by
  rw [startsWithDigit_lexeme (isWritten_of_mem_fixed h), isNumber_of_mem_fixed t h]

theorem not_isPrefixOf_of_isDigit {t : Token} (h : t ∈ fixed) {c : Char} (digit : c.isDigit)
    (s : List Char) : t.lexeme.isPrefixOf (c :: s) = false := by
  apply Bool.eq_false_iff.mpr
  intro starts
  obtain ⟨rest, same⟩ := List.isPrefixOf_iff_prefix.mp starts
  have other := startsWithDigit_fixed h rest
  rw [same] at other
  exact Bool.eq_false_iff.mp other digit

theorem takeWhile_digits {s : List Char} (h : startsWithDigit s = false) :
    s.takeWhile Char.isDigit = [] := by
  cases s with
  | nil => rfl
  | cons c s =>
      have other : c.isDigit = false := h
      rw [List.takeWhile_cons, other]
      rfl

theorem leading?_number {text : List Char} (nonempty : text ≠ []) (digits : ∀ c ∈ text, c.isDigit)
    {rest : List Char} (h : startsWithDigit rest = false) :
    leading? (text ++ rest) = some (number text) := by
  have run : (text ++ rest).takeWhile Char.isDigit = text := by
    rw [List.takeWhile_append_of_pos digits, takeWhile_digits h, List.append_nil]
  cases text with
  | nil => exact absurd rfl nonempty
  | cons c text =>
      have digit : c.isDigit := digits c List.mem_cons_self
      have unfixed : (fixed.find? fun t => t.lexeme.isPrefixOf (c :: text ++ rest)) = none := by
        apply List.find?_eq_none.mpr
        intro t mem
        exact Bool.eq_false_iff.mp (not_isPrefixOf_of_isDigit mem digit (text ++ rest))
      simp only [leading?, unfixed, run]

theorem leading?_lexeme {t : Token} (written : t.IsWritten) {rest : List Char}
    (h : t.EndsBefore rest) : leading? (t.lexeme ++ rest) = some t := by
  cases t with
  | number text => exact leading?_number written.1 written.2 h
  | _ => rfl

theorem lexeme_ne_nil {t : Token} (written : t.IsWritten) : t.lexeme ≠ [] := by
  cases t with
  | number text => exact written.1
  | _ => exact List.cons_ne_nil _ _

theorem scan_nil : scan [] = [] := by
  simp only [scan, Span.scan, List.map_nil]

theorem scan_of_leading? {c : Char} {s : List Char} {t : Token} (h : leading? (c :: s) = some t) :
    scan (c :: s) = t :: scan (s.drop (t.lexeme.length - 1)) := by
  simp only [scan, Span.scan, h, List.map_cons]
  exact congrArg (t :: ·) (Span.map_token_scan _ _ _)

theorem scan_of_leading?_none {c : Char} {s : List Char} (h : leading? (c :: s) = none) :
    scan (c :: s) = scan s := by
  simp only [scan, Span.scan, h]
  exact Span.map_token_scan _ _ s

/-- The way a scan goes through a text: past the lexeme of a token, or past a single character. -/
theorem scanInduction {motive : List Char → Prop} (nil : motive [])
    (found : ∀ c s t, leading? (c :: s) = some t → motive (s.drop (t.lexeme.length - 1)) →
      motive (c :: s))
    (skipped : ∀ c s, leading? (c :: s) = none → motive s → motive (c :: s)) (s : List Char) :
    motive s :=
  Span.scan.induct (fun _ s => motive s) (fun _ => nil)
    (fun _ c s t h ih => found c s t h ih) (fun _ c s h ih => skipped c s h ih) 0 s

/-- What a scan goes on with behind a token. -/
theorem drop_lexeme {t : Token} (written : t.IsWritten) {c : Char} {s rest : List Char}
    (h : c :: s = t.lexeme ++ rest) : s.drop (t.lexeme.length - 1) = rest := by
  cases spelled : t.lexeme with
  | nil => exact absurd spelled (lexeme_ne_nil written)
  | cons d word =>
      rw [spelled] at h
      cases h
      exact List.drop_left

theorem scan_lexeme {t : Token} (written : t.IsWritten) {rest : List Char}
    (h : t.EndsBefore rest) : scan (t.lexeme ++ rest) = t :: scan rest := by
  have found := leading?_lexeme written h
  obtain ⟨c, s, spelled⟩ := List.exists_cons_of_ne_nil
    (List.append_ne_nil_of_left_ne_nil (lexeme_ne_nil written) rest)
  have remaining := drop_lexeme written spelled.symm
  rw [spelled] at found ⊢
  rw [scan_of_leading? found, remaining]

theorem scan_fixed {t : Token} (h : t ∈ fixed) (rest : List Char) :
    scan (t.lexeme ++ rest) = t :: scan rest :=
  scan_lexeme (isWritten_of_mem_fixed h) (endsBefore_of_mem_fixed h rest)

theorem startsWithDigit_dropWhile (s : List Char) :
    startsWithDigit (s.dropWhile Char.isDigit) = false := by
  induction s with
  | nil => rfl
  | cons c s ih =>
      by_cases digit : c.isDigit
      · rw [List.dropWhile_cons_of_pos digit, ih]
      · rw [List.dropWhile_cons_of_neg digit]
        exact Bool.eq_false_iff.mpr digit

/-- The token at the start of a text is the only one that is written there and that what follows
does not go on with. -/
theorem leading?_eq_some_iff {s : List Char} {t : Token} :
    leading? s = some t ↔ ∃ rest, s = t.lexeme ++ rest ∧ t.IsWritten ∧ t.EndsBefore rest := by
  constructor
  · intro h
    unfold leading? at h
    split at h
    · rename_i found
      cases h
      have mem := List.mem_of_find?_eq_some found
      have starts := List.find?_some found
      obtain ⟨rest, rfl⟩ := List.isPrefixOf_iff_prefix.mp starts
      exact ⟨rest, rfl, isWritten_of_mem_fixed mem, endsBefore_of_mem_fixed mem rest⟩
    · split at h
      · cases h
      · rename_i nonempty
        cases h
        refine ⟨s.dropWhile Char.isDigit, List.takeWhile_append_dropWhile.symm, ⟨nonempty, ?_⟩,
          startsWithDigit_dropWhile s⟩
        exact List.all_eq_true.mp List.all_takeWhile
  · rintro ⟨rest, rfl, written, ends⟩
    exact leading?_lexeme written ends

theorem leading?_of_startsWithDigit {s : List Char} (h : startsWithDigit s) :
    leading? s = some (number (s.takeWhile Char.isDigit)) := by
  refine leading?_eq_some_iff.mpr ⟨s.dropWhile Char.isDigit,
    List.takeWhile_append_dropWhile.symm, ⟨?_, List.all_eq_true.mp List.all_takeWhile⟩,
    startsWithDigit_dropWhile s⟩
  cases s with
  | nil => cases h
  | cons c s =>
      have digit : c.isDigit := h
      rw [List.takeWhile_cons_of_pos digit]
      exact List.cons_ne_nil _ _

theorem lexeme_prefix_of_leading? {s : List Char} {t : Token} (h : leading? s = some t) :
    t.lexeme <+: s := by
  obtain ⟨rest, rfl, _⟩ := leading?_eq_some_iff.mp h
  exact List.prefix_append _ _

theorem isWritten_of_mem_scan (s : List Char) : ∀ t ∈ scan s, t.IsWritten := by
  induction s using scanInduction with
  | nil =>
      rw [scan_nil]
      exact fun _ mem => absurd mem List.not_mem_nil
  | found c s t found ih =>
      obtain ⟨_, _, written, _⟩ := leading?_eq_some_iff.mp found
      rw [scan_of_leading? found]
      exact List.forall_mem_cons.mpr ⟨written, ih⟩
  | skipped c s none ih =>
      rw [scan_of_leading?_none none]
      exact ih

/-- The tokens that a text can scan to are those that their lexemes stand for. -/
theorem ofLexeme?_lexeme_iff {t : Token} : ofLexeme? t.lexeme = some t ↔ t.IsWritten := by
  cases t with
  | number text =>
      change ofLexeme? text = some (number text) ↔ text ≠ [] ∧ ∀ c ∈ text, c.isDigit
      constructor
      · intro h
        unfold ofLexeme? at h
        split at h
        · rename_i found
          cases h
          cases isNumber_of_mem_fixed _ (List.mem_of_find?_eq_some found)
        · have digits := (Option.ite_none_right_eq_some.mp h).1
          simpa only [Bool.and_eq_true, Bool.not_eq_true', List.isEmpty_eq_false_iff,
            List.all_eq_true] using digits
      · rintro ⟨nonempty, digits⟩
        obtain ⟨c, rest, rfl⟩ := List.exists_cons_of_ne_nil nonempty
        have unfixed : (fixed.find? fun t => t.lexeme == c :: rest) = none := by
          apply List.find?_eq_none.mpr
          intro t mem same
          have other := not_isPrefixOf_of_isDigit mem (digits c List.mem_cons_self) rest
          rw [beq_iff_eq.mp same] at other
          exact Bool.eq_false_iff.mp other (List.isPrefixOf_iff_prefix.mpr List.prefix_rfl)
        rw [ofLexeme?, unfixed]
        exact if_pos (List.all_eq_true.mpr digits)
  | _ => exact ⟨fun _ => trivial, fun _ => rfl⟩

instance (t : Token) : Decidable t.IsWritten := decidable_of_iff _ ofLexeme?_lexeme_iff

/-! ## Characters between tokens -/

/-- A character that is part of no token. -/
def IsFiller (c : Char) : Prop := c.isDigit = false ∧ ∀ t ∈ fixed, c ∉ t.lexeme

instance (c : Char) : Decidable (IsFiller c) := inferInstanceAs (Decidable (_ ∧ _))

theorem isPrefixOf_append_cons {word : List Char} {c : Char} (h : c ∉ word) (s rest : List Char) :
    word.isPrefixOf (s ++ c :: rest) = word.isPrefixOf s := by
  induction s generalizing word with
  | nil =>
      cases word with
      | nil => rfl
      | cons d word =>
          have distinct : (d == c) = false := beq_false_of_ne (List.ne_of_not_mem_cons h).symm
          simp only [List.nil_append, List.isPrefixOf, distinct, Bool.false_and]
  | cons e s ih =>
      cases word with
      | nil => rfl
      | cons d word =>
          simp only [List.cons_append, List.isPrefixOf, ih (List.not_mem_of_not_mem_cons h)]

theorem takeWhile_append_cons {p : Char → Bool} {c : Char} (h : p c = false) (s rest : List Char) :
    (s ++ c :: rest).takeWhile p = s.takeWhile p := by
  induction s with
  | nil => simp only [List.nil_append, List.takeWhile_cons, h, Bool.false_eq_true, ↓reduceIte,
      List.takeWhile_nil]
  | cons d s ih => simp only [List.cons_append, List.takeWhile_cons, ih]

theorem leading?_append_filler {c : Char} (h : IsFiller c) (s rest : List Char) :
    leading? (s ++ c :: rest) = leading? s := by
  have words : (fixed.find? fun t => t.lexeme.isPrefixOf (s ++ c :: rest)) =
      fixed.find? fun t => t.lexeme.isPrefixOf s :=
    List.find?_congr fun t mem => isPrefixOf_append_cons (h.2 t mem) s rest
  simp only [leading?, words, takeWhile_append_cons h.1]

/-- A character that is part of no token has no influence beyond separating what it stands
between. -/
theorem scan_append_filler {c : Char} (h : IsFiller c) (s rest : List Char) :
    scan (s ++ c :: rest) = scan s ++ scan rest := by
  induction s using scanInduction with
  | nil =>
      have none : leading? (c :: rest) = none := leading?_append_filler h [] rest
      rw [List.nil_append, scan_of_leading?_none none, scan_nil, List.nil_append]
  | found d s t found ih =>
      have within : t.lexeme.length ≤ s.length + 1 := (lexeme_prefix_of_leading? found).length_le
      have behind : (s ++ c :: rest).drop (t.lexeme.length - 1) =
          s.drop (t.lexeme.length - 1) ++ c :: rest :=
        List.drop_append_of_le_length (by omega)
      have found' := (leading?_append_filler h (d :: s) rest).trans found
      rw [List.cons_append] at found' ⊢
      rw [scan_of_leading? found', behind, ih, scan_of_leading? found, List.cons_append]
  | skipped d s none ih =>
      have none' := (leading?_append_filler h (d :: s) rest).trans none
      rw [List.cons_append] at none' ⊢
      rw [scan_of_leading?_none none', ih, scan_of_leading?_none none]

end Token
end StageChain
