import StageChain.Proofs.Scanning

/-! Where the tokens of a text stand, judged by the bytes of the text. A list of spans accounts for
a text if it marks tokens one behind the other and no token starts anywhere else. Scanning finds
the one list that does. -/
namespace StageChain

/-! ## Texts as bytes -/

/-- The UTF-8 bytes of a text. -/
def utf8 (s : List Char) : List UInt8 := s.flatMap String.utf8EncodeChar

/-- The first byte is an ASCII digit. -/
def beginsWithDigit (bytes : List UInt8) : Bool := bytes.head?.any fun b => 48 ≤ b && b ≤ 57

/-- A token starts at the first byte: a number, or one with a fixed lexeme. -/
def BeginsToken (bytes : List UInt8) : Prop :=
  beginsWithDigit bytes ∨ ∃ t ∈ Token.fixed, utf8 t.lexeme <+: bytes

theorem utf8_cons (c : Char) (s : List Char) :
    utf8 (c :: s) = String.utf8EncodeChar c ++ utf8 s := List.flatMap_cons

theorem utf8_append (s rest : List Char) : utf8 (s ++ rest) = utf8 s ++ utf8 rest :=
  List.flatMap_append

theorem length_utf8 (s : List Char) : (utf8 s).length = byteLength s := by
  induction s with
  | nil => rfl
  | cons c s ih => rw [utf8_cons, List.length_append, String.length_utf8EncodeChar, ih, byteLength]

theorem byteLength_pos {s : List Char} (h : s ≠ []) : 0 < byteLength s := by
  cases s with
  | nil => exact absurd rfl h
  | cons c s => exact Nat.add_pos_left c.utf8Size_pos _

theorem toUTF8_eq_utf8 (source : String) : source.toUTF8.data.toList = utf8 source.toList := by
  have encoded : source.toList.utf8Encode = source.toUTF8 := String.utf8Encode_toList
  rw [← encoded, List.utf8Encode, List.data_toByteArray, utf8]

/-- The bytes of one text start with those of another only if the texts do so. -/
theorem utf8_prefix_iff {word s : List Char} : utf8 word <+: utf8 s ↔ word <+: s := by
  constructor
  · rintro ⟨rest, same⟩
    apply List.isPrefix_of_utf8Encode_append_eq_utf8Encode rest.toByteArray
    rw [List.utf8Encode, List.utf8Encode, ← List.toByteArray_append]
    exact congrArg List.toByteArray same
  · rintro ⟨rest, rfl⟩
    rw [utf8_append]
    exact List.prefix_append _ _

theorem drop_utf8_append {text : List UInt8} {p : Nat} {word rest : List Char}
    (h : text.drop p = utf8 (word ++ rest)) : text.drop (p + byteLength word) = utf8 rest := by
  rw [← List.drop_drop, h, utf8_append, ← length_utf8, List.drop_left]

theorem utf8EncodeChar_low {c : Char} (low : c.toNat ≤ 127) :
    String.utf8EncodeChar c = [UInt8.ofNat c.toNat] := if_pos low

/-- A character beyond ASCII has no byte of an ASCII character in it. -/
theorem high_of_mem_utf8EncodeChar {c : Char} (high : 127 < c.toNat) :
    ∀ b ∈ String.utf8EncodeChar c, 127 < b.toNat := by
  have beyond : ¬ c.val.toNat ≤ 127 := Nat.not_le.mpr high
  simp only [String.utf8EncodeChar, beyond, ↓reduceIte]
  -- There are two, three or four bytes, and each of them has its highest bit set.
  repeat' split
  all_goals
    simp only [List.forall_mem_cons, List.not_mem_nil, false_implies, implies_true, and_true,
      UInt8.toNat_ofNat']
    omega

theorem isDigit_iff (c : Char) : c.isDigit ↔ 48 ≤ c.toNat ∧ c.toNat ≤ 57 := by
  simp only [Char.isDigit, Bool.and_eq_true, decide_eq_true_eq]
  exact Iff.rfl

theorem beginsWithDigit_cons (b : UInt8) (bytes : List UInt8) :
    beginsWithDigit (b :: bytes) ↔ 48 ≤ b.toNat ∧ b.toNat ≤ 57 := by
  simp only [beginsWithDigit, List.head?_cons, Option.any_some, Bool.and_eq_true,
    decide_eq_true_eq]
  exact Iff.rfl

theorem beginsWithDigit_utf8 (s : List Char) : beginsWithDigit (utf8 s) = startsWithDigit s := by
  cases s with
  | nil => rfl
  | cons c s =>
      obtain ⟨b, bytes, encoded⟩ :=
        List.exists_cons_of_ne_nil (String.utf8EncodeChar_ne_nil (c := c))
      have first : (c.toNat ≤ 127 ∧ b.toNat = c.toNat) ∨ (127 < c.toNat ∧ 127 < b.toNat) := by
        by_cases low : c.toNat ≤ 127
        · rw [utf8EncodeChar_low low] at encoded
          cases encoded
          rw [UInt8.toNat_ofNat']
          omega
        · have high := Nat.not_le.mp low
          exact .inr ⟨high, high_of_mem_utf8EncodeChar high b (encoded ▸ List.mem_cons_self)⟩
      have start : startsWithDigit (c :: s) = c.isDigit := rfl
      rw [utf8_cons, encoded, start, Bool.eq_iff_iff, List.cons_append, beginsWithDigit_cons,
        isDigit_iff]
      omega

theorem beginsWithDigit_of_prefix {word bytes : List UInt8} (h : word <+: bytes)
    (digit : beginsWithDigit word) : beginsWithDigit bytes := by
  obtain ⟨rest, rfl⟩ := h
  cases word with
  | nil => cases digit
  | cons b word => exact digit

namespace Token

theorem mem_fixed_or_isNumber (t : Token) : t ∈ fixed ∨ t.isNumber := by
  cases t with
  | number text => exact .inr rfl
  | _ => exact .inl (by decide)

theorem low_of_mem_fixed : ∀ t ∈ fixed, (utf8 t.lexeme).head?.any (·.toNat ≤ 127) := by
  decide

theorem beginsToken_of_prefix {t : Token} (written : t.IsWritten) {bytes : List UInt8}
    (h : utf8 t.lexeme <+: bytes) : BeginsToken bytes := by
  obtain mem | number := t.mem_fixed_or_isNumber
  · exact .inr ⟨t, mem, h⟩
  · left
    apply beginsWithDigit_of_prefix h
    rw [beginsWithDigit_utf8, ← List.append_nil t.lexeme, startsWithDigit_lexeme written, number]

/-- On the bytes of a text, a token starts exactly where one is found. -/
theorem beginsToken_utf8_iff (s : List Char) : BeginsToken (utf8 s) ↔ ∃ t, leading? s = some t := by
  constructor
  · rintro (digit | ⟨t, mem, h⟩)
    · rw [beginsWithDigit_utf8] at digit
      exact ⟨_, leading?_of_startsWithDigit digit⟩
    · obtain ⟨rest, rfl⟩ := utf8_prefix_iff.mp h
      exact ⟨t, leading?_lexeme (isWritten_of_mem_fixed mem) (endsBefore_of_mem_fixed mem rest)⟩
  · rintro ⟨t, found⟩
    obtain ⟨rest, rfl, written, _⟩ := leading?_eq_some_iff.mp found
    exact beginsToken_of_prefix written (utf8_prefix_iff.mpr (List.prefix_append _ _))

theorem not_beginsToken_nil : ¬ BeginsToken [] := by
  intro begins
  obtain ⟨t, found⟩ := (beginsToken_utf8_iff []).mp begins
  cases found

theorem low_of_beginsToken {b : UInt8} {bytes : List UInt8} (h : BeginsToken (b :: bytes)) :
    b.toNat ≤ 127 := by
  obtain digit | ⟨t, mem, word, spelled⟩ := h
  · have := (beginsWithDigit_cons b bytes).mp digit
    omega
  · have low := low_of_mem_fixed t mem
    cases encoded : utf8 t.lexeme with
    | nil =>
        rw [encoded] at low
        cases low
    | cons d ds =>
        rw [encoded] at low spelled
        cases spelled
        exact of_decide_eq_true low

/-- No token starts inside a character that starts none. -/
theorem not_beginsToken_of_leading?_none {c : Char} {s : List Char}
    (none : leading? (c :: s) = none) {i : Nat} (inside : i < c.utf8Size) :
    ¬ BeginsToken ((utf8 (c :: s)).drop i) := by
  by_cases low : c.toNat ≤ 127
  · rw [← String.length_utf8EncodeChar, utf8EncodeChar_low low] at inside
    have first : i = 0 := Nat.lt_one_iff.mp inside
    rw [first, List.drop_zero, beginsToken_utf8_iff, none]
    rintro ⟨t, found⟩
    cases found
  · rw [← String.length_utf8EncodeChar] at inside
    rw [utf8_cons, List.drop_append_of_le_length (Nat.le_of_lt inside),
      List.drop_eq_getElem_cons inside]
    intro begins
    have high := high_of_mem_utf8EncodeChar (Nat.not_le.mp low) _ (List.getElem_mem inside)
    exact Nat.not_le.mpr high (low_of_beginsToken begins)

end Token

/-! ## Spans that account for a text -/

namespace Span

/-- A span marks a token in a text: it covers exactly the token's lexeme, and a number, which has the
form `[0-9]+`, to its last digit. -/
structure Marks (text : List UInt8) (span : Span) : Prop where
  nonempty : span.start < span.stop
  inBounds : span.stop ≤ text.length
  spelled : text.extract span.start span.stop = utf8 span.token.lexeme
  -- What a lexeme stands for: `Token.ofLexeme?` gives a number for digits only.
  written : span.token.IsWritten
  whole : span.token.isNumber → beginsWithDigit (text.drop span.stop) = false

/-- All tokens of a text from the byte `start` on, in the order of their places and without overlap.
No token starts at a place that no span covers. -/
structure Accounts (text : List UInt8) (start : Nat) (spans : List Span) : Prop where
  marks : ∀ span ∈ spans, span.Marks text
  start_le : ∀ span ∈ spans, start ≤ span.start
  ordered : spans.Pairwise fun a b => a.stop ≤ b.start
  complete : ∀ p, start ≤ p → (∀ span ∈ spans, ¬ (span.start ≤ p ∧ p < span.stop)) →
    ¬ BeginsToken (text.drop p)

variable {text : List UInt8} {p : Nat} {spans : List Span}

theorem Marks.beginsToken {span : Span} (h : span.Marks text) :
    BeginsToken (text.drop span.start) := by
  apply Token.beginsToken_of_prefix h.written
  rw [← h.spelled, List.extract_eq_take_drop]
  exact List.take_prefix _ _

/-- What a span marks is the token that is found where it starts. -/
theorem marks_iff {s : List Char} (here : text.drop p = utf8 s) {t : Token} {stop : Nat} :
    Marks text ⟨t, p, stop⟩ ↔ Token.leading? s = some t ∧ stop = p + byteLength t.lexeme := by
  have size : text.length - p = byteLength s := by rw [← List.length_drop, here, length_utf8]
  constructor
  · rintro ⟨nonempty, inBounds, spelled, written, whole⟩
    simp only at nonempty inBounds spelled written whole
    rw [List.extract_eq_take_drop, here] at spelled
    have stop_eq : stop = p + byteLength t.lexeme := by
      rw [← length_utf8, ← spelled, List.length_take, length_utf8]
      omega
    obtain ⟨rest, rfl⟩ := utf8_prefix_iff.mp (spelled ▸ List.take_prefix _ _)
    rw [stop_eq, drop_utf8_append here, beginsWithDigit_utf8] at whole
    exact ⟨Token.leading?_lexeme written (Token.endsBefore_iff.mpr whole), stop_eq⟩
  · rintro ⟨found, rfl⟩
    obtain ⟨rest, rfl, written, ends⟩ := Token.leading?_eq_some_iff.mp found
    have positive := byteLength_pos (Token.lexeme_ne_nil written)
    have sum : byteLength (t.lexeme ++ rest) = byteLength t.lexeme + byteLength rest := by
      simp only [← length_utf8, utf8_append, List.length_append]
    refine ⟨Nat.lt_add_of_pos_right positive, ?_, ?_, written, ?_⟩
    · change p + byteLength t.lexeme ≤ text.length
      omega
    · rw [List.extract_eq_take_drop, here, Nat.add_sub_cancel_left, utf8_append, ← length_utf8,
        List.take_left]
    · rw [drop_utf8_append here, beginsWithDigit_utf8]
      exact Token.endsBefore_iff.mp ends

namespace Accounts

theorem nil_iff (beyond : text.length ≤ p) : Accounts text p spans ↔ spans = [] := by
  constructor
  · intro h
    cases spans with
    | nil => rfl
    | cons span rest =>
        have marks := h.marks span List.mem_cons_self
        have := h.start_le span List.mem_cons_self
        have := marks.nonempty
        have := marks.inBounds
        omega
  · rintro rfl
    refine ⟨fun _ mem => absurd mem List.not_mem_nil, fun _ mem => absurd mem List.not_mem_nil,
      List.Pairwise.nil, ?_⟩
    intro q behind _
    rw [List.drop_eq_nil_of_le (Nat.le_trans beyond behind)]
    exact Token.not_beginsToken_nil

theorem skip_iff (none : ¬ BeginsToken (text.drop p)) :
    Accounts text p spans ↔ Accounts text (p + 1) spans := by
  constructor
  · intro h
    refine ⟨h.marks, ?_, h.ordered, fun q behind => h.complete q (by omega)⟩
    intro span mem
    have le := h.start_le span mem
    have ne : p ≠ span.start := by
      intro same
      exact none (same ▸ (h.marks span mem).beginsToken)
    omega
  · intro h
    refine ⟨h.marks, fun span mem => Nat.le_of_succ_le (h.start_le span mem), h.ordered, ?_⟩
    intro q behind free
    by_cases first : q = p
    · rw [first]
      exact none
    · exact h.complete q (by omega) free

theorem skip_many_iff {n : Nat} (none : ∀ i < n, ¬ BeginsToken (text.drop (p + i))) :
    Accounts text p spans ↔ Accounts text (p + n) spans := by
  induction n with
  | zero => rfl
  | succ n ih =>
      rw [ih fun i h => none i (by omega), skip_iff (none n (by omega)), Nat.add_assoc]

/-- Where a token is found, the first span starts: one that started later would leave the place
uncovered. -/
theorem first_start (begins : BeginsToken (text.drop p)) {first : Span} {rest : List Span}
    (h : Accounts text p (first :: rest)) : first.start = p := by
  have covered : ∃ span ∈ first :: rest, span.start ≤ p ∧ p < span.stop := by
    apply Classical.byContradiction
    intro free
    exact h.complete p (Nat.le_refl p) (fun span mem covers => free ⟨span, mem, covers⟩) begins
  obtain ⟨span, mem, le, _⟩ := covered
  have first_le := h.start_le first List.mem_cons_self
  have nonempty := (h.marks first List.mem_cons_self).nonempty
  obtain rfl | later := List.mem_cons.mp mem
  · omega
  · have before := (List.pairwise_cons.mp h.ordered).1 span later
    omega

theorem cons_iff {s : List Char} (here : text.drop p = utf8 s) {t : Token}
    (found : Token.leading? s = some t) :
    Accounts text p spans ↔ ∃ rest, spans = ⟨t, p, p + byteLength t.lexeme⟩ :: rest ∧
      Accounts text (p + byteLength t.lexeme) rest := by
  have begins : BeginsToken (text.drop p) := by
    rw [here, Token.beginsToken_utf8_iff]
    exact ⟨t, found⟩
  constructor
  · intro h
    cases spans with
    | nil =>
        have complete := h.complete p (Nat.le_refl p) fun _ mem => absurd mem List.not_mem_nil
        exact absurd begins complete
    | cons first rest =>
        obtain ⟨t', start, stop⟩ := first
        obtain rfl : start = p := first_start begins h
        obtain ⟨marked, marks⟩ := List.forall_mem_cons.mp h.marks
        obtain ⟨before, ordered⟩ := List.pairwise_cons.mp h.ordered
        obtain ⟨found', rfl⟩ := (marks_iff here).mp marked
        cases found.symm.trans found'
        refine ⟨rest, rfl, marks, before, ordered, ?_⟩
        intro q behind free
        apply h.complete q (by omega)
        refine List.forall_mem_cons.mpr ⟨?_, free⟩
        simp only
        omega
  · rintro ⟨rest, rfl, h⟩
    refine ⟨List.forall_mem_cons.mpr ⟨(marks_iff here).mpr ⟨found, rfl⟩, h.marks⟩,
      List.forall_mem_cons.mpr ⟨Nat.le_refl p, ?_⟩,
      List.pairwise_cons.mpr ⟨h.start_le, h.ordered⟩, ?_⟩
    · intro span mem
      exact Nat.le_trans (Nat.le_add_right p _) (h.start_le span mem)
    · intro q behind free
      obtain ⟨outside, free⟩ := List.forall_mem_cons.mp free
      simp only at outside
      exact h.complete q (by omega) free

end Accounts

/-- From any character on, a scan finds the one list of spans that accounts for the text. -/
theorem accounts_iff {s : List Char} (here : text.drop p = utf8 s) :
    Accounts text p spans ↔ spans = scan p s := by
  fun_induction scan p s generalizing spans with
  | case1 p => exact Accounts.nil_iff (List.drop_eq_nil_iff.mp here)
  | case2 p c s t found stop =>
      rename_i ih
      obtain ⟨rest, spelled, written, _⟩ := Token.leading?_eq_some_iff.mp found
      rw [Accounts.cons_iff here found]
      rw [spelled] at here
      have next := drop_utf8_append here
      rw [← Token.drop_lexeme written spelled] at next
      constructor
      · rintro ⟨others, rfl, h⟩
        rw [(ih next).mp h]
      · rintro rfl
        exact ⟨_, rfl, (ih next).mpr rfl⟩
  | case3 p c s none ih =>
      have next : text.drop (p + byteLength [c]) = utf8 s := drop_utf8_append here
      rw [← ih next]
      apply Accounts.skip_many_iff
      intro i inside
      rw [← List.drop_drop, here]
      exact Token.not_beginsToken_of_leading?_none none inside

/-- Scanning loses, invents and splits nothing: its spans account for the bytes of the whole text,
and no other list does. -/
theorem accounts_scan (source : String) (spans : List Span) :
    Accounts source.toUTF8.data.toList 0 spans ↔ spans = scan 0 source.toList :=
  accounts_iff (toUTF8_eq_utf8 source)

end Span
end StageChain
