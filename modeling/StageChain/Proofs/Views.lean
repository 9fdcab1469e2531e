import StageChain.Proofs.Decoding
import StageChain.Proofs.Reprinting
import StageChain.View

/-! All views of a source tell of the same tree or of the same error. Two views of a subject in
different layouts differ in form only: what the one writes as JSON decodes to what the other one
prints. No source has a tree or tokens that a writer refuses. -/
namespace StageChain

/-! ## Data that JSON takes -/

namespace Json

theorem ofDatum_variant {d : Datum} {x : Json} (h : ofDatum d = .ok x) (name : String) :
    ofDatum (.variant name d) = .ok (tagged name x) := by
  rw [ofDatum, h]
  rfl

theorem ofEntries_field {d : Datum} {x : Json} {rest : List (Scalar × Datum)}
    {fields : List (String × Json)} (h : ofDatum d = .ok x) (hs : ofEntries rest = .ok fields)
    (name : String) : ofEntries ((.text name, d) :: rest) = .ok ((name, x) :: fields) := by
  have key : key? (.text name) = some name := congrArg some String.ofList_toList
  rw [ofEntries, key]
  simp only [h, hs]
  rfl

theorem ofDatum_record {fields : List (String × Datum)} {values : List (String × Json)}
    (h : ofEntries (fields.map fun f => (.text f.1, f.2)) = .ok values) :
    ofDatum (.record fields) = .ok (.object values) := by
  rw [Datum.record, ofDatum, h]
  rfl

end Json

theorem Operator.ofDatum_toDatum (op : Operator) : Json.ofDatum op.toDatum = .ok op.toJson := by
  cases op with
  | arith op => exact Json.ofDatum_variant rfl "Num"
  | logic op => exact Json.ofDatum_variant rfl "Logic"

theorem Expr.ofDatum_toDatum (e : Expr) : Json.ofDatum e.toDatum = .ok e.toJson := by
  induction e with
  | element => rfl
  | const n => exact Json.ofDatum_variant rfl "Constant"
  | binary left op right ihl ihr =>
      refine Json.ofDatum_variant (Json.ofDatum_record ?_) "Binary"
      refine Json.ofEntries_field ihl (Json.ofEntries_field op.ofDatum_toDatum ?_ "op") "left"
      exact Json.ofEntries_field ihr rfl "right"

theorem Stage.ofDatum_toDatum (s : Stage) : Json.ofDatum s.toDatum = .ok s.toJson := by
  cases s with
  | map e => exact Json.ofDatum_variant e.ofDatum_toDatum "Map"
  | filter e => exact Json.ofDatum_variant e.ofDatum_toDatum "Filter"

theorem Chain.ofDatum_toDatum (chain : Chain) : Json.ofDatum chain.toDatum = .ok chain.toJson := by
  induction chain with
  | single s => exact Json.ofDatum_variant s.ofDatum_toDatum "Call"
  | link s rest ih =>
      refine Json.ofDatum_variant (Json.ofDatum_record ?_) "Chain"
      exact Json.ofEntries_field s.ofDatum_toDatum (Json.ofEntries_field ih rfl "tail") "head"

theorem Pair.ofDatum_toDatum (p : Pair) : Json.ofDatum p.toDatum = .ok p.toJson :=
  Json.ofDatum_record (Json.ofEntries_field p.filter.ofDatum_toDatum
    (Json.ofEntries_field p.map.ofDatum_toDatum rfl "map") "filter")

theorem Token.exists_ofDatum_toDatum (t : Token) : ∃ x, Json.ofDatum t.toDatum = .ok x := by
  cases t with
  | number text => exact ⟨_, Json.ofDatum_variant rfl "Number"⟩
  | _ => exact ⟨_, rfl⟩

theorem Token.exists_ofItems_toDatum (tokens : List Token) :
    ∃ xs, Json.ofItems (tokens.map Token.toDatum) = .ok xs := by
  induction tokens with
  | nil => exact ⟨[], rfl⟩
  | cons t tokens ih =>
      obtain ⟨x, first⟩ := t.exists_ofDatum_toDatum
      obtain ⟨xs, rest⟩ := ih
      refine ⟨x :: xs, ?_⟩
      rw [List.map_cons, Json.ofItems, first, rest]
      rfl

/-! ## Data that YAML takes -/

mutual

theorem Json.nestsVariants_toDatum : (x : Json) → x.toDatum.nestsVariants = false
  | .null | .bool _ | .int _ | .real _ | .string _ | .unpaired => rfl
  | .array items => Json.itemsNestVariants_itemsToData items
  | .object fields => Json.entriesNestVariants_fieldsToData fields

theorem Json.itemsNestVariants_itemsToData :
    (items : List Json) → Datum.itemsNestVariants (Json.itemsToData items) = false
  | [] => rfl
  | x :: rest =>
      Bool.or_eq_false_iff.mpr ⟨x.nestsVariants_toDatum, Json.itemsNestVariants_itemsToData rest⟩

theorem Json.entriesNestVariants_fieldsToData :
    (fields : List (String × Json)) → Datum.entriesNestVariants (Json.fieldsToData fields) = false
  | [] => rfl
  | (_, x) :: rest =>
      Bool.or_eq_false_iff.mpr
        ⟨x.nestsVariants_toDatum, Json.entriesNestVariants_fieldsToData rest⟩

end

theorem Chain.nestsVariants_toDatum (chain : Chain) : chain.toDatum.nestsVariants := by
  induction chain with
  | single s =>
      cases s with
      | map e => rfl
      | filter e => rfl
  | link s rest ih =>
      have split : (link s rest).toDatum.nestsVariants =
          (s.toDatum.nestsVariants || (rest.toDatum.nestsVariants || false)) := rfl
      rw [split, ih, Bool.true_or, Bool.or_true]

/-- Without the step through JSON, YAML has no text for any chain at all. -/
theorem Chain.yaml_toDatum (chain : Chain) :
    Yaml.write chain.toDatum = .error .nestedVariants ∧
      ∃ text, Yaml.write chain.toJson.toDatum = .ok text := by
  constructor
  · rw [Yaml.write, if_pos chain.nestsVariants_toDatum]
  · rw [Yaml.write, chain.toJson.nestsVariants_toDatum]
    exact ⟨_, rfl⟩

/-! ## Views -/

theorem compile_of_parse {o : Options} {source : String} {chain : Chain}
    (h : Chain.parse source = .ok chain) :
    compile o source = String.ofList (chain.canonical o).render := by
  simp only [compile, compile?_of_parse h]

theorem compile_of_parse_error {o : Options} {source : String} {e : CompileError}
    (h : Chain.parse source = .error e) : compile o source = e.message := by
  simp only [compile, compile?_eq_map_parse, h, Except.map]

namespace View

variable {v : View} {o : Options} {source : String}

theorem mem_available_of_ofName {name : String} (h : ofName name = .ok v) : v ∈ available := by
  unfold ofName at h
  split at h
  · split at h
    · cases h
    · cases h
    · split at h
      · rename_i listed
        cases h
        exact List.contains_iff_mem.mp listed
      · cases h
  · cases h

theorem writeJson_of_ofDatum {d : Datum} {x : Json} (h : Json.ofDatum d = .ok x) :
    writeJson d = .ok (String.ofList x.pretty) := by
  rw [writeJson, h]

theorem exists_renderTree (chain : Chain) (layout : Layout) :
    ∃ text, renderTree chain layout = .ok text := by
  cases layout with
  | simple => exact ⟨_, rfl⟩
  | json => exact ⟨_, writeJson_of_ofDatum chain.ofDatum_toDatum⟩
  | yaml =>
      obtain ⟨text, written⟩ := chain.yaml_toDatum.2
      refine ⟨String.ofList text, ?_⟩
      simp only [renderTree, writeYaml, chain.ofDatum_toDatum, written]

theorem exists_renderTokens (tokens : List Token) :
    ∃ text, renderTokens tokens .json = .ok text := by
  obtain ⟨xs, taken⟩ := Token.exists_ofItems_toDatum tokens
  have datum : Json.ofDatum (.sequence (tokens.map Token.toDatum)) = .ok (.array xs) := by
    rw [Json.ofDatum, taken]
    rfl
  exact ⟨_, writeJson_of_ofDatum datum⟩

/-- The views that show what a source parses to, and nothing else. -/
def parsed : List View := [⟨.tree, .simple⟩, ⟨.tree, .json⟩, ⟨.tree, .yaml⟩, ⟨.canonical, .json⟩]

theorem render_of_parse_error (h : v ∈ parsed) {e : CompileError}
    (failed : Chain.parse source = .error e) : v.render o source = .error (.compile e) := by
  have tree : ∀ layout, render ⟨.tree, layout⟩ o source = .error (.compile e) := by
    intro layout
    simp only [render, failed]
  simp only [parsed, List.mem_cons, List.not_mem_nil, or_false] at h
  rcases h with rfl | rfl | rfl | rfl
  · exact tree .simple
  · exact tree .json
  · exact tree .yaml
  · simp only [render, compile?_eq_map_parse, failed, Except.map]

theorem render_canonical_json {chain : Chain} (read : Chain.parse source = .ok chain) :
    render ⟨.canonical, .json⟩ o source = .ok (String.ofList (chain.canonical o).toJson.pretty) := by
  simp only [render, compile?_of_parse read]
  exact writeJson_of_ofDatum (chain.canonical o).ofDatum_toDatum

theorem exists_render (h : v ∈ available)
    (shown : v ∈ parsed → ∃ chain, Chain.parse source = .ok chain) :
    ∃ text, v.render o source = .ok text := by
  have tree : ∀ layout, ⟨.tree, layout⟩ ∈ parsed →
      ((⟨.tree, layout⟩ : View) ∈ parsed → ∃ chain, Chain.parse source = .ok chain) →
      ∃ text, render ⟨.tree, layout⟩ o source = .ok text := by
    intro layout mem shown
    obtain ⟨chain, read⟩ := shown mem
    simp only [render, read]
    exact exists_renderTree chain layout
  simp only [available, List.mem_cons, List.not_mem_nil, or_false] at h
  rcases h with rfl | rfl | rfl | rfl | rfl | rfl | rfl
  · exact ⟨_, rfl⟩
  · exact exists_renderTokens _
  · exact tree .simple (by decide) shown
  · exact tree .json (by decide) shown
  · exact tree .yaml (by decide) shown
  · exact ⟨_, rfl⟩
  · obtain ⟨chain, read⟩ := shown (by decide)
    exact ⟨_, render_canonical_json read⟩

theorem render_eq_error_iff (h : v ∈ available) {err : ViewError} :
    v.render o source = .error err ↔
      v ∈ parsed ∧ ∃ e, Chain.parse source = .error e ∧ err = .compile e := by
  constructor
  · intro failed
    have missing : ¬ (v ∈ parsed → ∃ chain, Chain.parse source = .ok chain) := by
      intro shown
      obtain ⟨text, rendered⟩ := exists_render (o := o) h shown
      rw [rendered] at failed
      cases failed
    obtain ⟨shown, unread⟩ := Classical.not_imp.mp missing
    cases read : Chain.parse source with
    | ok chain => exact absurd ⟨chain, read⟩ unread
    | error e =>
        rw [render_of_parse_error shown read] at failed
        cases failed
        exact ⟨shown, e, rfl, rfl⟩
  · rintro ⟨shown, e, failed, rfl⟩
    exact render_of_parse_error shown failed

/-- Compiling and parsing, each with its own way into the text, come to the same chain or the same
error. A named view fails exactly where it shows the parsed source and there is none, with the error
of the parser. The simple canonical view then shows the message of that error. For a source that is
parsed, the JSON of the chain decodes to the chain that the simple view prints, and the JSON of the
pair to the pair, as far as the decoder reads: fewer than 128 levels. -/
theorem views_agree {name : String} (h : ofName name = .ok v) (o : Options) (source : String) :
    compile? o source = (Chain.parse source).map (Chain.canonical o) ∧
    (∀ err, v.render o source = .error err ↔
      v ∈ parsed ∧ ∃ e, Chain.parse source = .error e ∧ err = .compile e) ∧
    (∃ text, render ⟨.canonical, .simple⟩ o source = .ok text ∧
      ∀ e, Chain.parse source = .error e → text = e.message) ∧
    ∀ chain, Chain.parse source = .ok chain →
      let p := chain.canonical o
      (render ⟨.tree, .simple⟩ o source = .ok (String.ofList chain.render) ∧
        ∃ text, render ⟨.tree, .json⟩ o source = .ok text ∧
          (Json.parse text.toList).bind (Decode.chain? Decode.maxLevels) =
            if chain.toJson.nesting < 128 then some chain else none) ∧
      (render ⟨.canonical, .simple⟩ o source = .ok (String.ofList p.render) ∧
        ∃ text, render ⟨.canonical, .json⟩ o source = .ok text ∧
          (Json.parse text.toList).bind (Decode.pair? Decode.maxLevels) =
            if p.toJson.nesting < 128 then some p else none) := by
  refine ⟨compile?_eq_map_parse o source,
    fun _ => render_eq_error_iff (mem_available_of_ofName h), ?_, ?_⟩
  · exact ⟨_, rfl, fun _ failed => compile_of_parse_error failed⟩
  · intro chain read p
    have tree : ∀ layout, render ⟨.tree, layout⟩ o source = renderTree chain layout := by
      intro layout
      simp only [render, read]
    have json : render ⟨.tree, .json⟩ o source = .ok (String.ofList chain.toJson.pretty) :=
      (tree .json).trans (writeJson_of_ofDatum chain.ofDatum_toDatum)
    refine ⟨⟨tree .simple, _, json, ?_⟩, congrArg Except.ok (compile_of_parse read), _,
      render_canonical_json read, ?_⟩
    · rw [String.toList_ofList]
      exact Decode.parse_bind_eq chain.isPlain_toJson (Decode.chain?_toJson _ chain) (some 2)
    · rw [String.toList_ofList]
      exact Decode.parse_bind_eq p.isPlain_toJson (Decode.pair?_toJson _ p) (some 2)

theorem nesting_toJson_elementSum (n : Nat) :
    (Chain.elementSum (n + 1)).toJson.nesting = 2 * n + 5 := by
  have sum : (Expr.elementSum (n + 1)).toJson.nesting = 2 * n + 3 := by
    induction n with
    | zero => rfl
    | succ n ih =>
        have operator : (Operator.toJson (.arith .plus)).nesting = 1 := rfl
        have element : Expr.element.toJson.nesting = 0 := rfl
        rw [Expr.elementSum, Expr.toJson, Json.nesting_tagged]
        simp only [Json.nesting, Json.nestingFields, ih, operator, element]
        omega
  simp only [Chain.elementSum, Chain.toJson, Stage.toJson, Json.nesting_tagged, sum]

/-- The JSON of a sum with 62 operators has as many levels as the decoder reads, and that of a sum
with one more is not decoded. -/
theorem views_agree_deepest :
    ofName "ast-json" = .ok ⟨.tree, .json⟩ ∧
      (let source := Chain.elementSumSource 62
      Chain.parse source = .ok (.elementSum 62) ∧
        ∃ text, render ⟨.tree, .json⟩ {} source = .ok text ∧
          (Json.parse text.toList).bind (Decode.chain? Decode.maxLevels) = some (.elementSum 62)) ∧
      let source := Chain.elementSumSource 63
      Chain.parse source = .ok (.elementSum 63) ∧
        ∃ text, render ⟨.tree, .json⟩ {} source = .ok text ∧
          (Json.parse text.toList).bind (Decode.chain? Decode.maxLevels) = none := by
  have named : ofName "ast-json" = .ok ⟨.tree, .json⟩ := by decide
  refine ⟨named, ?_, ?_⟩
  · intro source
    have read : Chain.parse source = .ok (.elementSum 62) :=
      Chain.parse_elementSumSource (by decide)
    have within : (Chain.elementSum 62).toJson.nesting < 128 := by
      rw [nesting_toJson_elementSum]
      decide
    obtain ⟨_, text, shown, decoded⟩ := ((views_agree named {} source).2.2.2 _ read).1
    exact ⟨read, text, shown, decoded.trans (if_pos within)⟩
  · intro source
    have read : Chain.parse source = .ok (.elementSum 63) :=
      Chain.parse_elementSumSource (by decide)
    have beyond : ¬ (Chain.elementSum 63).toJson.nesting < 128 := by
      rw [nesting_toJson_elementSum]
      decide
    obtain ⟨_, text, shown, decoded⟩ := ((views_agree named {} source).2.2.2 _ read).1
    exact ⟨read, text, shown, decoded.trans (if_neg beyond)⟩

end View
end StageChain
