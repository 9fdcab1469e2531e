import StageChain.Codec
import StageChain.Proofs.JsonText

/-! Decoding gives back what was encoded, as long as the JSON nests no deeper than the decoder may
go. Deeper JSON is refused. Operators, expressions, stages, chains and pairs come back from both
layouts of their JSON, and no two of them are written alike. -/
namespace StageChain

/-! ## Encoded values are read back from their texts -/

namespace Json

theorem nesting_tagged (name : String) (x : Json) : (tagged name x).nesting = x.nesting + 1 := by
  simp only [tagged, nesting, nestingFields, Nat.max_zero]

theorem IsPlain.tagged {x : Json} (h : x.IsPlain) (name : String) : (Json.tagged name x).IsPlain :=
  .object (List.forall_mem_singleton.mpr h)

end Json

theorem Operator.isPlain_toJson (op : Operator) : op.toJson.IsPlain := by
  cases op with
  | arith op => exact (Json.IsPlain.string op.name).tagged "Num"
  | logic op => exact (Json.IsPlain.string op.name).tagged "Logic"

theorem Expr.isPlain_toJson (e : Expr) : e.toJson.IsPlain := by
  induction e with
  | element => exact .string "Element"
  | const n => exact (Json.IsPlain.int n.toInt).tagged "Constant"
  | binary left op right ihl ihr =>
      refine Json.IsPlain.tagged (.object ?_) "Binary"
      refine List.forall_mem_cons.mpr ⟨ihl, List.forall_mem_cons.mpr ⟨op.isPlain_toJson, ?_⟩⟩
      exact List.forall_mem_singleton.mpr ihr

theorem Stage.isPlain_toJson (s : Stage) : s.toJson.IsPlain := by
  cases s with
  | map e => exact e.isPlain_toJson.tagged "Map"
  | filter e => exact e.isPlain_toJson.tagged "Filter"

theorem Chain.isPlain_toJson (chain : Chain) : chain.toJson.IsPlain := by
  induction chain with
  | single s => exact s.isPlain_toJson.tagged "Call"
  | link s rest ih =>
      refine Json.IsPlain.tagged (.object ?_) "Chain"
      exact List.forall_mem_cons.mpr ⟨s.isPlain_toJson, List.forall_mem_singleton.mpr ih⟩

theorem Pair.isPlain_toJson (p : Pair) : p.toJson.IsPlain :=
  .object (List.forall_mem_cons.mpr
    ⟨p.filter.isPlain_toJson, List.forall_mem_singleton.mpr p.map.isPlain_toJson⟩)

/-! ## Decoders -/

namespace Decode

variable {α β : Type} {levels : Nat}

/-- A value whose JSON a decoder is given: it is found if the decoder may go as deep as that. -/
def within (levels : Nat) (x : Json) (a : α) : Option α :=
  if x.nesting ≤ levels then some a else none

theorem within_tagged (name : String) (x : Json) (a : α) :
    within (levels + 1) (.tagged name x) a = within levels x a := by
  simp only [within, Json.nesting_tagged, Nat.add_le_add_iff_right]

theorem map_within (x : Json) (a : α) (f : α → β) :
    (within levels x a).map f = within levels x (f a) := by
  unfold within
  split
  · rfl
  · rfl

theorem bind_within (x : Json) (a : α) (f : α → Option β) :
    (within levels x a).bind f = if x.nesting ≤ levels then f a else none := by
  unfold within
  split
  · rfl
  · rfl

theorem within_empty (a : α) : within (levels + 1) (.object []) a = some a :=
  if_pos (Nat.succ_le_succ (Nat.zero_le levels))

theorem within_field (name : String) (x : Json) (fields : List (String × Json)) (a : α) :
    within (levels + 1) (.object ((name, x) :: fields)) a =
      if x.nesting ≤ levels then within (levels + 1) (.object fields) a else none := by
  simp only [within, Json.nesting, Json.nestingFields, Nat.add_le_add_iff_right, Nat.max_le]
  by_cases fits : x.nesting ≤ levels
  · simp only [fits, true_and, ↓reduceIte]
  · simp only [fits, false_and, ↓reduceIte]

theorem operator?_toJson (levels : Nat) (op : Operator) :
    operator? levels op.toJson = within levels op.toJson op := by
  cases op with
  | arith op =>
      cases levels with
      | zero => rfl
      | succ levels => cases op <;> rfl
  | logic op =>
      cases levels with
      | zero => rfl
      | succ levels => cases op <;> rfl

/-- An operation is two levels, the object of its constructor and the one of its parts. -/
theorem expr?_toJson (levels : Nat) (e : Expr) :
    expr? levels e.toJson = within levels e.toJson e := by
  induction e generalizing levels with
  | element =>
      cases levels with
      | zero => rfl
      | succ levels => rfl
  | const n =>
      cases levels with
      | zero => rfl
      | succ levels =>
          have read : expr? (levels + 1) (Expr.const n).toJson =
              (Decimal.word? n.toInt).map .const := rfl
          rw [read, Decimal.word?_toInt]
          rfl
  | binary left op right ihl ihr =>
      match levels with
      | 0 => rfl
      | 1 => rfl
      | levels + 2 =>
          have read : expr? (levels + 2) (Expr.binary left op right).toJson = (do
            return .binary (← expr? levels left.toJson) (← operator? levels op.toJson)
              (← expr? levels right.toJson)) := rfl
          rw [read, ihl, ihr, operator?_toJson, Expr.toJson, within_tagged]
          simp only [Option.bind_eq_bind, Option.pure_def, bind_within, within_field, within_empty]

theorem stage?_toJson (levels : Nat) (s : Stage) :
    stage? levels s.toJson = within levels s.toJson s := by
  cases levels with
  | zero =>
      cases s with
      | map e => rfl
      | filter e => rfl
  | succ levels =>
      cases s with
      | map e =>
          have read : stage? (levels + 1) (Stage.map e).toJson = (expr? levels e.toJson).map .map := rfl
          rw [read, expr?_toJson, map_within, Stage.toJson, within_tagged]
      | filter e =>
          have read : stage? (levels + 1) (Stage.filter e).toJson =
              (expr? levels e.toJson).map .filter := rfl
          rw [read, expr?_toJson, map_within, Stage.toJson, within_tagged]

theorem chain?_toJson (levels : Nat) (chain : Chain) :
    chain? levels chain.toJson = within levels chain.toJson chain := by
  induction chain generalizing levels with
  | single s =>
      cases levels with
      | zero => rfl
      | succ levels =>
          have read : chain? (levels + 1) (Chain.single s).toJson =
              (stage? levels s.toJson).map .single := rfl
          rw [read, stage?_toJson, map_within, Chain.toJson, within_tagged]
  | link s rest ih =>
      match levels with
      | 0 => rfl
      | 1 => rfl
      | levels + 2 =>
          have read : chain? (levels + 2) (Chain.link s rest).toJson =
              (do return .link (← stage? levels s.toJson) (← chain? levels rest.toJson)) := rfl
          rw [read, stage?_toJson, ih, Chain.toJson, within_tagged]
          simp only [Option.bind_eq_bind, Option.pure_def, bind_within, within_field, within_empty]

theorem pair?_toJson (levels : Nat) (p : Pair) :
    pair? levels p.toJson = within levels p.toJson p := by
  cases levels with
  | zero => rfl
  | succ levels =>
      have read : pair? (levels + 1) p.toJson =
          (do return ⟨← expr? levels p.filter.toJson, ← expr? levels p.map.toJson⟩) := rfl
      rw [read, expr?_toJson, expr?_toJson, Pair.toJson]
      simp only [Option.bind_eq_bind, Option.pure_def, bind_within, within_field, within_empty]

/-- A decoder that is right about a value is right about the texts of the value, in all layouts. -/
theorem parse_bind_eq {x : Json} (plain : x.IsPlain) {a : α} {decode? : Json → Option α}
    (h : decode? x = within maxLevels x a) (indent : Option Nat) :
    (Json.parse (x.writeOnto indent 0 [])).bind decode? =
      if x.nesting < 128 then some a else none := by
  have limit : x.nesting ≤ maxLevels ↔ x.nesting < 128 := Nat.lt_succ_iff.symm
  rw [plain.parse_writeOnto indent, Option.bind_some, h, within]
  simp only [limit]

/-! ## The data model -/

/-- What a decoder makes of the texts that an encoder writes. It gives every value back while fewer
than 128 arrays and objects are open at once, and refuses the text of any deeper one. The texts tell
all values apart, however deep. -/
structure RoundTrips (encode : α → Json) (decode? : Nat → Json → Option α) : Prop where
  compact (a : α) : (Json.parse (encode a).compact).bind (decode? maxLevels) =
    if (encode a).nesting < 128 then some a else none
  pretty (a : α) : (Json.parse (encode a).pretty).bind (decode? maxLevels) =
    if (encode a).nesting < 128 then some a else none
  compact_injective : Function.Injective fun a => (encode a).compact
  pretty_injective : Function.Injective fun a => (encode a).pretty

section

variable {encode : α → Json} {decode? : Nat → Json → Option α}

/-- A decoder that may go as deep as the JSON of two values finds both of them. -/
theorem encode_injective (decodes : ∀ levels a, decode? levels (encode a) = within levels (encode a) a) :
    Function.Injective encode := by
  intro a b same
  have found : ∀ c, decode? (encode c).nesting (encode c) = some c := by
    intro c
    rw [decodes, within, if_pos (Nat.le_refl _)]
  have first := found a
  rw [same, found b] at first
  exact (Option.some.inj first).symm

theorem writeOnto_injective (plain : ∀ a, (encode a).IsPlain)
    (decodes : ∀ levels a, decode? levels (encode a) = within levels (encode a) a)
    (indent : Option Nat) : Function.Injective fun a => (encode a).writeOnto indent 0 [] := by
  intro a b same
  have parsed : Json.parse ((encode a).writeOnto indent 0 []) =
      Json.parse ((encode b).writeOnto indent 0 []) := congrArg Json.parse same
  rw [(plain a).parse_writeOnto, (plain b).parse_writeOnto] at parsed
  exact encode_injective decodes (Option.some.inj parsed)

theorem roundTrips_of_decodes (plain : ∀ a, (encode a).IsPlain)
    (decodes : ∀ levels a, decode? levels (encode a) = within levels (encode a) a) :
    RoundTrips encode decode? where
  compact a := parse_bind_eq (plain a) (decodes maxLevels a) none
  pretty a := parse_bind_eq (plain a) (decodes maxLevels a) (some 2)
  compact_injective := writeOnto_injective plain decodes none
  pretty_injective := writeOnto_injective plain decodes (some 2)

end

/-- Every type of the data model is read back from its JSON. -/
theorem dataModel_roundTrips :
    RoundTrips Expr.toJson expr? ∧ RoundTrips Operator.toJson operator? ∧
      RoundTrips Stage.toJson stage? ∧ RoundTrips Chain.toJson chain? ∧
      RoundTrips Pair.toJson pair? := by
  refine ⟨?_, ?_, ?_, ?_, ?_⟩
  · exact roundTrips_of_decodes Expr.isPlain_toJson expr?_toJson
  · exact roundTrips_of_decodes Operator.isPlain_toJson operator?_toJson
  · exact roundTrips_of_decodes Stage.isPlain_toJson stage?_toJson
  · exact roundTrips_of_decodes Chain.isPlain_toJson chain?_toJson
  · exact roundTrips_of_decodes Pair.isPlain_toJson pair?_toJson

end Decode
end StageChain
