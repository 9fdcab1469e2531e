import StageChain.Proofs.RoundTrip

/-! The grammar of chains, as relations between tokens and what they derive. Reading an expression
succeeds on exactly the tokens that derive one, and no tokens derive two chains. -/
namespace StageChain

theorem Token.eq_token_of_operator? {t : Token} {op : Operator} (h : t.operator? = some op) :
    t = op.token := by
  cases t <;> cases h <;> rfl

theorem Token.eq_cons_of_operator? {ts : List Token} {op : Operator}
    (h : ts.head?.bind Token.operator? = some op) : ts = op.token :: ts.tail := by
  cases ts with
  | nil => cases h
  | cons t ts => exact congrArg (· :: ts) (Token.eq_token_of_operator? h)

theorem Stage.eq_of_opening {s t : Stage} (opening : s.opening = t.opening)
    (body : s.body = t.body) : s = t := by
  cases s with
  | map e =>
      cases t with
      | map e' => exact congrArg map body
      | filter e' => cases opening
  | filter e =>
      cases t with
      | map e' => cases opening
      | filter e' => exact congrArg filter body

namespace Grammar

/-- The two kinds of phrases within a stage. -/
inductive Phrase
  | operand
  | expression

/-- Tokens that make up a phrase, the expression they stand for, and the levels they nest. Every
expression is a level, around the one in the parentheses of its first operand and the one behind
its operator. -/
inductive Derives : Phrase → List Token → Expr → Nat → Prop
  | element : Derives .operand [.element] .element 0
  | negative {text : List Char} {value : Int32} : Decimal.toWord? ('-' :: text) = some value →
      Derives .operand [.minus, .number text] (.const value) 0
  | number {text : List Char} {value : Int32} : Decimal.toWord? text = some value →
      Derives .operand [.number text] (.const value) 0
  | paren {ts : List Token} {e : Expr} {n : Nat} : Derives .expression ts e n →
      Derives .operand (.openParen :: (ts ++ [.closeParen])) e n
  | last {ts : List Token} {e : Expr} {n : Nat} : Derives .operand ts e n →
      Derives .expression ts e (n + 1)
  | operation {ls rs : List Token} {left right : Expr} {op : Operator} {m n : Nat} :
      Derives .operand ls left m → Derives .expression rs right n →
      Derives .expression (ls ++ op.token :: rs) (.binary left op right) (max m n + 1)

/-- A stage and the levels of its expression. -/
inductive DerivesStage : List Token → Stage → Nat → Prop
  | intro {ts : List Token} {s : Stage} {n : Nat} : Derives .expression ts s.body n →
      DerivesStage (s.opening :: (ts ++ [.closeBrace])) s n

/-- A chain and the levels of its stages. -/
inductive DerivesChain : List Token → Chain → List Nat → Prop
  | single {ts : List Token} {s : Stage} {n : Nat} : DerivesStage ts s n →
      DerivesChain ts (.single s) [n]
  | link {ts rest : List Token} {s : Stage} {chain : Chain} {n : Nat} {ns : List Nat} :
      DerivesStage ts s n → DerivesChain rest chain ns →
      DerivesChain (ts ++ .pipe :: rest) (.link s chain) (n :: ns)

/-- The weight of stages with the given levels. -/
def weightOf : List Nat → Nat
  | [] => 0
  | n :: ns => (n + 1) + weightOf ns

namespace Phrase

def read (room : Nat) : Phrase → List Token → Except Failure Reading
  | operand => Reading.operand (Reading.expression room)
  | expression => Reading.expression room

/-- An expression takes in every operator that follows it. -/
def EndsBefore (rest : List Token) : Phrase → Prop
  | operand => True
  | expression => rest.head?.bind Token.operator? = none

end Phrase

variable {k : Phrase} {room : Nat} {ts : List Token}

theorem Derives.read {e : Expr} {n : Nat} (h : Derives k ts e n) (fits : n ≤ room)
    {rest : List Token} (ends : k.EndsBefore rest) :
    k.read room (ts ++ rest) = .ok ⟨e, n, rest⟩ := by
  induction h generalizing room rest with
  | element => rfl
  | negative value => exact Reading.literal_of_toWord? value
  | number value => exact Reading.literal_of_toWord? value
  | paren _ ih =>
      rw [List.cons_append, List.append_assoc]
      exact Reading.operand_paren (ih fits rfl)
  | last _ ih =>
      obtain ⟨room, rfl⟩ := Nat.exists_eq_add_of_le' (Nat.le_trans (Nat.le_add_left 1 _) fits)
      exact Reading.expression_of_operand (ih (Nat.le_of_succ_le_succ fits) trivial) ends
  | operation _ _ ihl ihr =>
      obtain ⟨room, rfl⟩ := Nat.exists_eq_add_of_le' (Nat.le_trans (Nat.le_add_left 1 _) fits)
      have both := Nat.max_le.mp (Nat.le_of_succ_le_succ fits)
      rw [List.append_assoc]
      exact Reading.expression_of_operator (ihl both.1 trivial) (ihr both.2 ends)

theorem Derives.pos {e : Expr} {n : Nat} (h : Derives .expression ts e n) : 0 < n := by
  cases h with
  | last _ => exact Nat.succ_pos _
  | operation _ _ => exact Nat.succ_pos _

/-- What a reading says about the tokens it started from. -/
structure Explains (k : Phrase) (room : Nat) (ts : List Token) (r : Reading) : Prop where
  derived : ∃ used, ts = used ++ r.rest ∧ Derives k used r.expr r.nesting
  fits : r.nesting ≤ room
  ends : k.EndsBefore r.rest

theorem explains_literal (used : List Token) {rest : List Token} {text : List Char} {r : Reading}
    (derived : ∀ value, Decimal.toWord? text = some value → Derives .operand used (.const value) 0)
    (h : Reading.literal text rest = .ok r) : Explains .operand room (used ++ rest) r := by
  unfold Reading.literal at h
  split at h
  · rename_i value found
    cases h
    exact ⟨⟨used, rfl, derived value found⟩, Nat.zero_le room, trivial⟩
  · cases h

theorem explains_operand {r : Reading}
    (inner : ∀ {ts r}, Reading.expression room ts = .ok r → Explains .expression room ts r)
    (h : Reading.operand (Reading.expression room) ts = .ok r) :
    Explains .operand room ts r := by
  unfold Reading.operand at h
  split at h
  · cases h
    exact ⟨⟨[.element], rfl, .element⟩, Nat.zero_le room, trivial⟩
  · exact explains_literal [.minus, .number _] (fun _ => .negative) h
  · cases h
  · exact explains_literal [.number _] (fun _ => .number) h
  · split at h
    · cases h
    · rename_i found
      cases h
      obtain ⟨⟨used, rfl, body⟩, fits, _⟩ := inner found
      refine ⟨⟨.openParen :: (used ++ [.closeParen]), ?_, .paren body⟩, fits, trivial⟩
      rw [List.cons_append, List.append_assoc]
      rfl
    · cases h
  · cases h

theorem explains_expression {r : Reading} (h : Reading.expression room ts = .ok r) :
    Explains .expression room ts r := by
  induction room generalizing ts r with
  | zero => cases h
  | succ room ih =>
      unfold Reading.expression at h
      split at h
      · cases h
      · rename_i left foundLeft
        obtain ⟨⟨used, whole, first⟩, fitsLeft, _⟩ := explains_operand ih foundLeft
        split at h
        · rename_i last
          cases h
          exact ⟨⟨used, whole, .last first⟩, Nat.succ_le_succ fitsLeft, last⟩
        · rename_i op found
          split at h
          · cases h
          · rename_i right foundRight
            cases h
            obtain ⟨⟨usedRight, split, second⟩, fitsRight, ends⟩ := ih foundRight
            have behind : left.rest = op.token :: (usedRight ++ right.rest) := by
              rw [Token.eq_cons_of_operator? found, split]
            refine ⟨⟨used ++ op.token :: usedRight, ?_, .operation first second⟩, ?_, ends⟩
            · rw [whole, behind, List.append_assoc]
              rfl
            · exact Nat.succ_le_succ (Nat.max_le.mpr ⟨fitsLeft, fitsRight⟩)

/-- A phrase is read exactly where the grammar derives it. -/
theorem read_eq_ok_iff {r : Reading} : k.read room ts = .ok r ↔ Explains k room ts r := by
  constructor
  · intro h
    cases k with
    | operand => exact explains_operand explains_expression h
    | expression => exact explains_expression h
  · rintro ⟨⟨used, rfl, derived⟩, fits, ends⟩
    exact derived.read fits ends

/-- A phrase in front of tokens that cannot belong to it is made out in one way only. -/
theorem Derives.unique {ts' rest rest' : List Token} {e e' : Expr} {n n' : Nat}
    (h : Derives k ts e n) (h' : Derives k ts' e' n') (same : ts ++ rest = ts' ++ rest')
    (ends : k.EndsBefore rest) (ends' : k.EndsBefore rest') :
    e = e' ∧ n = n' ∧ rest = rest' := by
  have first := h.read (Nat.le_max_left n n') ends
  have second := h'.read (Nat.le_max_right n n') ends'
  rw [same, second] at first
  cases first
  exact ⟨rfl, rfl, rfl⟩

theorem DerivesStage.unique {ts' rest rest' : List Token} {s s' : Stage} {n n' : Nat}
    (h : DerivesStage ts s n) (h' : DerivesStage ts' s' n') (same : ts ++ rest = ts' ++ rest') :
    s = s' ∧ n = n' ∧ rest = rest' := by
  obtain ⟨body⟩ := h
  obtain ⟨body'⟩ := h'
  simp only [List.cons_append, List.append_assoc, List.cons.injEq, List.nil_append] at same
  obtain ⟨expr, levels, tails⟩ := body.unique body' same.2 rfl rfl
  exact ⟨Stage.eq_of_opening same.1 expr, levels, (List.cons.inj tails).2⟩

/-- The grammar is unambiguous, within the limits on nesting and weight and beyond them. -/
theorem DerivesChain.unique {ts' : List Token} {chain chain' : Chain} {ns ns' : List Nat}
    (h : DerivesChain ts chain ns) (h' : DerivesChain ts' chain' ns') (same : ts = ts') :
    chain = chain' ∧ ns = ns' := by
  induction h generalizing ts' chain' ns' with
  | single stage =>
      cases h' with
      | single stage' =>
          obtain ⟨rfl, rfl, _⟩ := stage.unique stage' (congrArg (· ++ []) same)
          exact ⟨rfl, rfl⟩
      | link stage' _ =>
          obtain ⟨_, _, tails⟩ := stage.unique stage' ((List.append_nil _).trans same)
          cases tails
  | link stage _ ih =>
      cases h' with
      | single stage' =>
          obtain ⟨_, _, tails⟩ := stage.unique stage' (same.trans (List.append_nil _).symm)
          cases tails
      | link stage' rest' =>
          obtain ⟨rfl, rfl, tails⟩ := stage.unique stage' same
          obtain ⟨rfl, rfl⟩ := ih rest' (List.cons.inj tails).2
          exact ⟨rfl, rfl⟩

end Grammar
end StageChain
