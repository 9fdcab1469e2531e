import StageChain.Proofs.JsonScalars

/-! Reading the text of a JSON value gives the value back, in every layout. -/
namespace StageChain.Json

variable {indent : Option Nat} {room level : Nat} {k : List Char} {x : Json}

theorem skipBlanks_append {ws : List Char} (blank : ∀ c ∈ ws, isBlank c) (s : List Char) :
    skipBlanks (ws ++ s) = skipBlanks s :=
  List.dropWhile_append_of_pos blank

theorem skipBlanks_cons {c : Char} (h : isBlank c = false) (s : List Char) :
    skipBlanks (c :: s) = c :: s := by
  simp only [skipBlanks, List.dropWhile_cons, h, Bool.false_eq_true, ↓reduceIte]

theorem isBlank_newline (indent : Option Nat) (level : Nat) :
    ∀ c ∈ newline indent level, isBlank c := by
  cases indent with
  | none => exact fun _ mem => absurd mem List.not_mem_nil
  | some width =>
      refine List.forall_mem_cons.mpr ⟨rfl, ?_⟩
      intro c mem
      rw [List.eq_of_mem_replicate mem]
      rfl

theorem colon_eq (indent : Option Nat) :
    ∃ ws, colon indent = ':' :: ws ∧ ∀ c ∈ ws, isBlank c := by
  cases indent with
  | none => exact ⟨[], rfl, fun _ mem => absurd mem List.not_mem_nil⟩
  | some width => exact ⟨[' '], rfl, List.forall_mem_singleton.mpr rfl⟩

/-! ## Values

One equation for each way in which a value can start. -/

theorem value_congr {s t : List Char} (h : skipBlanks s = skipBlanks t) (room : Nat) :
    value room s = value room t := by
  unfold value
  simp only [h]

theorem value_append_blanks {ws : List Char} (blank : ∀ c ∈ ws, isBlank c) (room : Nat)
    (s : List Char) : value room (ws ++ s) = value room s :=
  value_congr (skipBlanks_append blank s) room

theorem value_null (room : Nat) (k : List Char) :
    value room (scalar null ++ k) = some (null, k) := by
  unfold value
  rfl

theorem value_bool (room : Nat) (b : Bool) (k : List Char) :
    value room (scalar (bool b) ++ k) = some (bool b, k) := by
  unfold value
  cases b with
  | false => rfl
  | true => rfl

theorem ne_of_startsNumeral {c d : Char} (h : startsNumeral c) (other : startsNumeral d = false) :
    c ≠ d := by
  rintro rfl
  cases h.symm.trans other

theorem isBlank_of_startsNumeral {c : Char} (h : startsNumeral c) : isBlank c = false := by
  simp only [isBlank, Bool.or_eq_false_iff, beq_eq_false_iff_ne]
  have other : ∀ d, startsNumeral d = false → c ≠ d := fun _ => ne_of_startsNumeral h
  exact ⟨⟨⟨other _ rfl, other _ rfl⟩, other _ rfl⟩, other _ rfl⟩

theorem value_numeral {c : Char} (h : startsNumeral c) (room : Nat) (s : List Char) :
    value room (c :: s) = numeral (c :: s) := by
  rw [value, skipBlanks_cons (isBlank_of_startsNumeral h)]
  split
  case h_7 => rfl
  all_goals
    rename_i starts
    exact absurd (List.cons.inj starts).1 (ne_of_startsNumeral h rfl)

theorem value_quote (room : Nat) (text : String) (k : List Char) :
    value room (quote text ++ k) = some (.string text, k) := by
  have read := stringLiteral_quote text k
  rw [quote, List.cons_append, List.cons_append] at read ⊢
  rw [value, skipBlanks_cons rfl]
  simp only [read, Option.bind_eq_bind, Option.bind_some, Option.elim_some, Option.pure_def]

theorem value_emptyArray (room : Nat) (k : List Char) :
    value (room + 1) ('[' :: ']' :: k) = some (array [], k) := rfl

theorem value_emptyObject (room : Nat) (k : List Char) :
    value (room + 1) ('{' :: '}' :: k) = some (object [], k) := rfl

theorem value_array {s : List Char} {xs : List Json} (start : ∀ r, skipBlanks s ≠ ']' :: r)
    (h : commaSeparated (value room) (skipBlanks s) = some (xs, ']' :: k)) :
    value (room + 1) ('[' :: s) = some (.array xs, k) := by
  rw [value, skipBlanks_cons rfl]
  simp only [h, Option.bind_eq_bind, Option.bind_some, Option.pure_def]

theorem value_object {s : List Char} {xs : List (Option String × Json)}
    (start : ∀ r, skipBlanks s ≠ '}' :: r)
    (h : commaSeparated (member (value room)) (skipBlanks s) = some (xs, '}' :: k)) :
    value (room + 1) ('{' :: s) = some (ofMembers xs, k) := by
  rw [value, skipBlanks_cons rfl]
  simp only [h, Option.bind_eq_bind, Option.bind_some, Option.pure_def]

theorem member_quote {name : String} {text : List Char} (h : value room text = some (x, k)) :
    member (value room) (quote name ++ colon indent ++ text) = some ((some name, x), k) := by
  obtain ⟨ws, written, blank⟩ := colon_eq indent
  have start : skipBlanks (quote name ++ (':' :: ws ++ text)) = quote name ++ (':' :: ws ++ text) :=
    skipBlanks_cons rfl _
  have behind : skipBlanks (':' :: (ws ++ text)) = ':' :: (ws ++ text) := skipBlanks_cons rfl _
  rw [written, List.append_assoc, member, start, stringLiteral_quote]
  simp only [Option.bind_eq_bind, Option.bind_some, List.cons_append, behind,
    value_append_blanks blank, h, Option.pure_def]

theorem member_append_blanks {ws : List Char} (blank : ∀ c ∈ ws, isBlank c)
    (read : List Char → Option (Json × List Char)) (s : List Char) :
    member read (ws ++ s) = member read s := by
  unfold member
  rw [skipBlanks_append blank]

theorem ofMembers_fields (fields : List (String × Json)) :
    ofMembers (fields.map fun f => (some f.1, f.2)) = .object fields := by
  have named : (fields.map fun f => (some f.1, f.2)).mapM
      (fun f : Option String × Json => f.1.map fun name => (name, f.2)) = some fields := by
    induction fields with
    | nil => rfl
    | cons f fields ih =>
        simp only [List.map_cons, List.mapM_cons, ih, Option.map_some, Option.bind_eq_bind,
          Option.bind_some, Option.pure_def]
  simp only [ofMembers, named]

/-! ## Items with commas between them -/

section Separated

variable {α β : Type} {item : List Char → Option (β × List Char)}
  {write : α → List Char → List Char} {gap : List Char}

theorem commaSeparated_cons {s rest : List Char} {b : β} {bs : List β}
    (read : item s = some (b, ',' :: rest)) (shorter : rest.length < s.length)
    (others : commaSeparated item rest = some (bs, k)) :
    commaSeparated item s = some (b :: bs, k) := by
  have comma : skipBlanks (',' :: rest) = ',' :: rest := skipBlanks_cons rfl rest
  rw [commaSeparated, read]
  simp only [comma, shorter, ↓reduceIte, others, Option.map_some]

theorem commaSeparated_last {s rest : List Char} {c : Char} {b : β} (read : item s = some (b, rest))
    (last : skipBlanks rest = c :: k) (other : c ≠ ',') :
    commaSeparated item s = some ([b], c :: k) := by
  rw [commaSeparated, read]
  simp only [last]
  split
  · rename_i comma
    exact absurd (List.cons.inj comma).1 other
  · rfl

/-- The text behind a first item: each further one with a comma and a gap before it. -/
def separated (write : α → List Char → List Char) (gap : List Char) :
    List α → List Char → List Char
  | [], k => k
  | a :: as, k => ',' :: gap ++ write a (separated write gap as k)

/-- An item that is written in front of another text is read as `b`, and the other text is left. -/
structure ReadsBack (item : List Char → Option (β × List Char))
    (write : α → List Char → List Char) (a : α) (b : β) : Prop where
  read : ∀ k, EndsNumeral k → item (write a k) = some (b, k)
  longer : ∀ k, k.length ≤ (write a k).length

theorem commaSeparated_separated {f : α → β} (blank : ∀ c ∈ gap, isBlank c)
    (skips : ∀ ws s, (∀ c ∈ ws, isBlank c) → item (ws ++ s) = item s)
    {c : Char} {tail : List Char} (ends : EndsNumeral tail) (last : skipBlanks tail = c :: k)
    (other : c ≠ ',') {a : α} {as : List α} (reads : ∀ b ∈ a :: as, ReadsBack item write b (f b))
    {lead : List Char} (leads : ∀ c ∈ lead, isBlank c) :
    commaSeparated item (lead ++ write a (separated write gap as tail)) =
      some ((a :: as).map f, c :: k) := by
  induction as generalizing a lead with
  | nil =>
      have read := (reads a List.mem_cons_self).read tail ends
      exact commaSeparated_last ((skips lead _ leads).trans read) last other
  | cons b bs ih =>
      obtain ⟨first, others⟩ := List.forall_mem_cons.mp reads
      have written : separated write gap (b :: bs) tail =
          ',' :: (gap ++ write b (separated write gap bs tail)) := rfl
      rw [written]
      refine commaSeparated_cons ((skips lead _ leads).trans (first.read _ rfl)) ?_ (ih others blank)
      have longer := first.longer (',' :: (gap ++ write b (separated write gap bs tail)))
      simp only [List.length_cons, List.length_append] at longer ⊢
      omega

theorem length_separated {size : α → Nat} {as : List α}
    (h : ∀ a ∈ as, ∀ k, size a + k.length ≤ (write a k).length) (k : List Char) :
    k.length ≤ (separated write gap as k).length ∧
      ∀ a ∈ as, size a + k.length ≤ (separated write gap as k).length := by
  induction as with
  | nil => exact ⟨Nat.le_refl _, fun _ mem => absurd mem List.not_mem_nil⟩
  | cons a as ih =>
      obtain ⟨first, others⟩ := List.forall_mem_cons.mp h
      obtain ⟨longer, sizes⟩ := ih others
      have step := first (separated write gap as k)
      simp only [separated, List.cons_append, List.length_cons, List.length_append]
      refine ⟨by omega, List.forall_mem_cons.mpr ⟨by omega, ?_⟩⟩
      intro b mem
      have size := sizes b mem
      omega

/-- The comma before the first item takes as much room as the bracket that stands there. -/
theorem length_bracketed {size : α → Nat} {as : List α} {n : Nat}
    (h : ∀ a ∈ as, ∀ k, size a + k.length ≤ (write a k).length)
    (deepest : ∀ m, (∀ a ∈ as, size a ≤ m) → n ≤ m) (margin : List Char) (c : Char)
    (k : List Char) :
    n + 1 + k.length ≤ (separated write gap as (margin ++ c :: k)).length := by
  obtain ⟨longer, sizes⟩ := @length_separated α write gap size as h (margin ++ c :: k)
  simp only [List.length_append, List.length_cons] at longer sizes
  have within : n ≤ (separated write gap as (margin ++ c :: k)).length - (1 + k.length) := by
    apply deepest
    intro a mem
    have size := sizes a mem
    omega
  omega

end Separated

/-! ## Whole texts -/

/-- The values that a text gives back: no other numerals than integers, and no half of a pair of
surrogates. -/
inductive IsPlain : Json → Prop
  | null : IsPlain .null
  | bool (value : Bool) : IsPlain (.bool value)
  | int (value : Int) : IsPlain (.int value)
  | string (text : String) : IsPlain (.string text)
  | array {items : List Json} : (∀ x ∈ items, IsPlain x) → IsPlain (.array items)
  | object {fields : List (String × Json)} : (∀ f ∈ fields, IsPlain f.2) → IsPlain (.object fields)

mutual

/-- How many arrays and objects stand one inside the other. -/
def nesting : Json → Nat
  | array items => nestingItems items + 1
  | object fields => nestingFields fields + 1
  | _ => 0

def nestingItems : List Json → Nat
  | [] => 0
  | x :: xs => max x.nesting (nestingItems xs)

def nestingFields : List (String × Json) → Nat
  | [] => 0
  | (_, x) :: fields => max x.nesting (nestingFields fields)

end

theorem nestingItems_le_iff {items : List Json} {n : Nat} :
    nestingItems items ≤ n ↔ ∀ x ∈ items, x.nesting ≤ n := by
  induction items with
  | nil => exact ⟨fun _ _ mem => absurd mem List.not_mem_nil, fun _ => Nat.zero_le n⟩
  | cons x items ih => rw [nestingItems, Nat.max_le, ih, List.forall_mem_cons]

theorem nestingFields_le_iff {fields : List (String × Json)} {n : Nat} :
    nestingFields fields ≤ n ↔ ∀ f ∈ fields, f.2.nesting ≤ n := by
  induction fields with
  | nil => exact ⟨fun _ _ mem => absurd mem List.not_mem_nil, fun _ => Nat.zero_le n⟩
  | cons f fields ih => rw [nestingFields, Nat.max_le, ih, List.forall_mem_cons]

def writeField (indent : Option Nat) (level : Nat) (f : String × Json) (k : List Char) : List Char :=
  quote f.1 ++ colon indent ++ f.2.writeOnto indent level k

theorem writeItems_eq (items : List Json) (k : List Char) :
    writeItems indent level items k =
      separated (writeOnto indent level) (newline indent level) items k := by
  induction items with
  | nil => rfl
  | cons x items ih => rw [writeItems, separated, ih]

theorem writeFields_eq (fields : List (String × Json)) (k : List Char) :
    writeFields indent level fields k =
      separated (writeField indent level) (newline indent level) fields k := by
  induction fields with
  | nil => rfl
  | cons f fields ih =>
      rw [writeFields, separated, writeField, ih]
      simp only [List.append_assoc, List.cons_append]

theorem writeOnto_array (x : Json) (items : List Json) (k : List Char) :
    (array (x :: items)).writeOnto indent level k =
      '[' :: (newline indent (level + 1) ++ x.writeOnto indent (level + 1)
        (separated (writeOnto indent (level + 1)) (newline indent (level + 1)) items
          (newline indent level ++ ']' :: k))) := by
  rw [writeOnto, writeItems_eq, List.cons_append]

theorem writeOnto_object (f : String × Json) (fields : List (String × Json)) (k : List Char) :
    (object (f :: fields)).writeOnto indent level k =
      '{' :: (newline indent (level + 1) ++ writeField indent (level + 1) f
        (separated (writeField indent (level + 1)) (newline indent (level + 1)) fields
          (newline indent level ++ '}' :: k))) := by
  rw [writeOnto, writeFields_eq, writeField]
  simp only [List.append_assoc, List.cons_append]

/-- A text is at least as long as its value is deep. -/
theorem IsPlain.nesting_le_length (h : x.IsPlain) (level : Nat) (k : List Char) :
    x.nesting + k.length ≤ (x.writeOnto indent level k).length := by
  have scalar : ∀ s k : List Char, 0 + k.length ≤ (s ++ k).length := by
    intro s k
    rw [List.length_append]
    exact Nat.add_le_add_right (Nat.zero_le _) _
  have brackets : ∀ (a b : Char) (k : List Char), 0 + 1 + k.length ≤ (a :: b :: k).length := by
    intro a b k
    simp only [List.length_cons]
    omega
  induction h generalizing level k with
  | null => exact scalar _ k
  | bool => exact scalar _ k
  | int => exact scalar _ k
  | string => exact scalar _ k
  | @array items _ ih =>
      cases items with
      | nil => exact brackets '[' ']' k
      | cons y items =>
          rw [writeOnto_array]
          exact length_bracketed (fun x mem => ih x mem (level + 1))
            (fun _ => nestingItems_le_iff.mpr) (newline indent level) ']' k
  | @object fields _ ih =>
      cases fields with
      | nil => exact brackets '{' '}' k
      | cons f fields =>
          have sizes : ∀ g ∈ f :: fields, ∀ k,
              g.2.nesting + k.length ≤ (writeField indent (level + 1) g k).length := by
            intro g mem k
            have size := ih g mem (level + 1) k
            rw [writeField, List.length_append]
            omega
          rw [writeOnto_object]
          exact length_bracketed sizes (fun _ => nestingFields_le_iff.mpr) (newline indent level) '}' k

theorem IsPlain.length_le (h : x.IsPlain) (level : Nat) (k : List Char) :
    k.length ≤ (x.writeOnto indent level k).length :=
  Nat.le_trans (Nat.le_add_left _ _) (h.nesting_le_length level k)

theorem IsPlain.start (h : x.IsPlain) (level : Nat) (k : List Char) :
    ∃ c s, x.writeOnto indent level k = c :: s ∧ isBlank c = false ∧ c ≠ ']' := by
  cases h with
  | null => exact ⟨'n', _, rfl, rfl, by decide⟩
  | bool value =>
      cases value with
      | false => exact ⟨'f', _, rfl, rfl, by decide⟩
      | true => exact ⟨'t', _, rfl, rfl, by decide⟩
  | int value =>
      obtain ⟨c, s, spelled, numeral⟩ := ofInt_eq_cons value
      have written : Decimal.ofInt value ++ k = c :: (s ++ k) := by rw [spelled, List.cons_append]
      exact ⟨c, _, written, isBlank_of_startsNumeral numeral, ne_of_startsNumeral numeral rfl⟩
  | string text => exact ⟨'"', _, rfl, rfl, by decide⟩
  | @array items =>
      cases items with
      | nil => exact ⟨'[', _, rfl, rfl, by decide⟩
      | cons => exact ⟨'[', _, rfl, rfl, by decide⟩
  | @object fields =>
      cases fields with
      | nil => exact ⟨'{', _, rfl, rfl, by decide⟩
      | cons => exact ⟨'{', _, rfl, rfl, by decide⟩

theorem endsNumeral_newline {c : Char} (h : continuesNumeral c = false) :
    EndsNumeral (newline indent level ++ c :: k) := by
  cases indent with
  | none => exact h
  | some width => rfl

theorem skipBlanks_newline {c : Char} (h : isBlank c = false) :
    skipBlanks (newline indent level ++ c :: k) = c :: k :=
  (skipBlanks_append (isBlank_newline indent level) _).trans (skipBlanks_cons h k)

/-- The part of an array or an object between its brackets. -/
theorem commaSeparated_bracketed {α β : Type} {item : List Char → Option (β × List Char)}
    {write : α → List Char → List Char} {f : α → β}
    (skips : ∀ ws s, (∀ c ∈ ws, isBlank c) → item (ws ++ s) = item s) {c : Char}
    (closes : isBlank c = false ∧ continuesNumeral c = false ∧ c ≠ ',') {a : α} {as : List α}
    (reads : ∀ b ∈ a :: as, ReadsBack item write b (f b)) :
    commaSeparated item (write a (separated write (newline indent (level + 1)) as
      (newline indent level ++ c :: k))) = some ((a :: as).map f, c :: k) :=
  commaSeparated_separated (isBlank_newline indent (level + 1)) skips
    (endsNumeral_newline closes.2.1) (skipBlanks_newline closes.1) closes.2.2 reads
    (fun _ mem => absurd mem List.not_mem_nil)

theorem value_writeOnto_array {items : List Json} (plain : ∀ x ∈ items, x.IsPlain)
    (reads : ∀ x ∈ items, ReadsBack (value room) (writeOnto indent (level + 1)) x x) :
    value (room + 1) ((array items).writeOnto indent level k) = some (array items, k) := by
  cases items with
  | nil => exact value_emptyArray room k
  | cons x items =>
      have inside := @commaSeparated_bracketed indent level k _ _ _ _ id
        (fun _ s blank => value_append_blanks blank room s) ']' (by decide) x items reads
      obtain ⟨c, s, text, visible, other⟩ := (plain x List.mem_cons_self).start (level + 1)
        (separated (writeOnto indent (level + 1)) (newline indent (level + 1)) items
          (newline indent level ++ ']' :: k))
      rw [List.map_id, text] at inside
      rw [writeOnto_array, text]
      apply value_array
      · intro r closed
        rw [skipBlanks_newline visible] at closed
        exact other (List.cons.inj closed).1
      · rw [skipBlanks_newline visible, inside]

theorem ReadsBack.writeField {f : String × Json}
    (h : ReadsBack (value room) (writeOnto indent level) f.2 f.2) :
    ReadsBack (member (value room)) (writeField indent level) f (some f.1, f.2) := by
  constructor
  · intro k ends
    exact member_quote (h.read k ends)
  · intro k
    rw [Json.writeField, List.length_append]
    exact Nat.le_trans (h.longer k) (Nat.le_add_left _ _)

theorem value_writeOnto_object {fields : List (String × Json)}
    (reads : ∀ f ∈ fields, ReadsBack (value room) (writeOnto indent (level + 1)) f.2 f.2) :
    value (room + 1) ((object fields).writeOnto indent level k) = some (object fields, k) := by
  cases fields with
  | nil => exact value_emptyObject room k
  | cons f fields =>
      have inside := @commaSeparated_bracketed indent level k _ _ _ _ _
        (fun _ s blank => member_append_blanks blank (value room) s) '}' (by decide) f fields
        (fun g mem => (reads g mem).writeField)
      have start : ∃ s, writeField indent (level + 1) f
          (separated (writeField indent (level + 1)) (newline indent (level + 1)) fields
            (newline indent level ++ '}' :: k)) = '"' :: s := ⟨_, rfl⟩
      obtain ⟨s, text⟩ := start
      rw [text] at inside
      rw [writeOnto_object, text, ← ofMembers_fields]
      apply value_object
      · intro r closed
        rw [skipBlanks_newline rfl] at closed
        cases closed
      · rw [skipBlanks_newline rfl, inside]

/-- The induction goes over the value. The bound on its levels is the one that the reader counts
down as it enters an array or an object. -/
theorem IsPlain.readsBack (h : x.IsPlain) (fits : x.nesting ≤ room) :
    ReadsBack (value room) (writeOnto indent level) x x := by
  refine ⟨?_, fun k => h.length_le level k⟩
  induction h generalizing room level with
  | null => exact fun k _ => value_null room k
  | bool b => exact fun k _ => value_bool room b k
  | int n =>
      intro k ends
      obtain ⟨c, s, spelled, start⟩ := ofInt_eq_cons n
      have read := ends.numeral n
      change value room (Decimal.ofInt n ++ k) = _
      rw [spelled, List.cons_append] at read ⊢
      rw [value_numeral start, read]
  | string text => exact fun k _ => value_quote room text k
  | array plain ih =>
      intro k _
      cases room with
      | zero => exact absurd fits (Nat.not_succ_le_zero _)
      | succ room =>
          have deep := nestingItems_le_iff.mp (Nat.le_of_succ_le_succ fits)
          refine value_writeOnto_array plain ?_
          intro x mem
          exact ⟨ih x mem (deep x mem), fun k => (plain x mem).length_le (level + 1) k⟩
  | object plain ih =>
      intro k _
      cases room with
      | zero => exact absurd fits (Nat.not_succ_le_zero _)
      | succ room =>
          have deep := nestingFields_le_iff.mp (Nat.le_of_succ_le_succ fits)
          refine value_writeOnto_object ?_
          intro f mem
          exact ⟨ih f mem (deep f mem), fun k => (plain f mem).length_le (level + 1) k⟩

/-- Every text of a value is read as that value. -/
theorem IsPlain.parse_writeOnto (h : x.IsPlain) (indent : Option Nat) :
    parse (x.writeOnto indent 0 []) = some x := by
  have within : x.nesting ≤ (x.writeOnto indent 0 []).length := h.nesting_le_length 0 []
  simp only [parse, (h.readsBack within).read [] rfl, skipBlanks, List.dropWhile_nil,
    List.isEmpty_nil, ↓reduceIte]

end StageChain.Json
