import LlamaCpp.Lib.Ensures
import LlamaCpp.Peg.Arena

/-!
# Reloading a parser arena

Writing an arena and reading it back keeps every field of every parser but one.  An attached
schema comes back with its keys sorted, and a schema that is the null value comes back as no
schema.  So the reloaded arena is the arena that was written exactly when every attached
schema has sorted keys and is not null.
-/

set_option autoImplicit false

namespace LlamaCpp.Peg

open LlamaCpp.Lib Option

@[simp] theorem map_ok {α β : Type} (value : α) (build : α → β) :
    build <$> (Except.ok value : Except String α) = .ok (build value) := rfl

@[simp] theorem isString_string (value : String) : (Json.string value).isString = true := rfl

@[simp] theorem isArray_array (items : List Json) : (Json.array items).isArray = true := rfl

@[simp] theorem isObject_ofEntries (entries : List (String × Json)) :
    (Json.ofEntries entries).isObject = true := rfl

@[simp] theorem getString_string (value : String) : (Json.string value).getString = .ok value := rfl

@[simp] theorem getBool_bool (value : Bool) : (Json.bool value).getBool = .ok value := rfl

@[simp] theorem elements_array (items : List Json) : (Json.array items).elements = items := rfl

@[simp] theorem contains_ofEntries (entries : List (String × Json)) (key : String) :
    (Json.ofEntries entries).contains key = (entries.lookup key).isSome := by
  rw [Json.contains, Json.find?_ofEntries]

@[simp] theorem at_ofEntries (entries : List (String × Json)) (key : String) :
    (Json.ofEntries entries).at_ key = (entries.lookup key).getD .null := by
  rw [Json.at_, Json.find?_ofEntries]

@[simp] theorem getSize_jsonId (id : ParserId) : (jsonId id).getSize = .ok id := by
  have small : ((id.toNat : Int) % 2 ^ 64).toNat = id.toNat := by
    have bound := id.toNat_lt
    omega
  change Except.ok (UInt64.ofNat ((id.toNat : Int) % 2 ^ 64).toNat) = _
  rw [small, UInt64.ofNat_toNat]

@[simp] theorem getUInt32_jsonSize (n : UInt32) : (jsonSize n.toNat).getUInt32 = .ok n := by
  have small : ((n.toNat : Int) % 2 ^ 32).toNat = n.toNat := by
    have bound := n.toNat_lt
    omega
  change Except.ok (UInt32.ofNat ((n.toNat : Int) % 2 ^ 32).toNat) = _
  rw [small, UInt32.ofNat_toNat]

@[simp] theorem getInt_jsonInt (n : Int32) : (jsonInt n).getInt = .ok n := by
  change Except.ok (Int32.ofInt n.toInt) = _
  rw [Int32.ofInt_toInt]

theorem mapM_written {α β γ : Type} (write : α → β) (read : β → Except String γ) (back : α → γ)
    (reads : ∀ value, read (write value) = .ok (back value)) (values : List α) :
    (values.map write).mapM read = .ok (values.map back) := by
  induction values with
  | nil => rfl
  | cons value rest ih =>
    rw [List.map_cons, List.mapM_cons, reads, ih]
    rfl

@[simp] theorem getItems_jsonId (children : List ParserId) :
    (Json.array (children.map jsonId)).getItems Json.getSize = .ok children := by
  have read := mapM_written jsonId Json.getSize id getSize_jsonId children
  rwa [List.map_id] at read

@[simp] theorem getItems_string (texts : List String) :
    (Json.array (texts.map .string)).getItems Json.getString = .ok texts := by
  have read := mapM_written Json.string Json.getString id getString_string texts
  rwa [List.map_id] at read

theorem readRange_jsonRange (range : CharRange) : readRange (jsonRange range) = .ok range := by
  simp [readRange, jsonRange, require, List.lookup_cons]

@[simp] theorem mapM_readRange (ranges : List CharRange) :
    ranges.mapM (readRange ∘ jsonRange) = .ok ranges := by
  have read := mapM_written jsonRange readRange id readRange_jsonRange ranges
  rwa [List.map_id, List.mapM_map] at read

def reloadSchema (schema : Option Json) : Option Json :=
  if (schema.getD .null).toSorted.isNull then none else some (schema.getD .null).toSorted

def Parser.reload : Parser → Parser
  | .schema child name attached raw => .schema child name (reloadSchema attached) raw
  | parser => parser

theorem deserialize_typed (type : String) (fields : List (String × Json)) :
    deserializeParserVariant (.ofEntries (("type", .string type) :: fields)) =
      readType (.ofEntries (("type", .string type) :: fields)) type := by
  have isType : requireOf (.ofEntries (("type", .string type) :: fields)) "type" Json.isString
      "Parser variant JSON missing or invalid 'type' field" = .ok () := by
    simp [requireOf]
  rw [deserializeParserVariant, isType, at_ofEntries]
  rfl

theorem deserialize_serialize (parser : Parser) :
    deserializeParserVariant (serializeParserVariant parser) = .ok parser.reload := by
  cases parser <;> rw [serializeParserVariant, deserialize_typed] <;>
    simp [readType, List.lookup_cons, require, requireOf, readText, readChild, readChildText,
      readChildren, readRepetition, readChars, readString, readUntil, readSchema, readRule,
      Parser.reload, reloadSchema]

def Parser.SchemaKept : Parser → Prop
  | .schema _ _ (some attached) _ => attached.IsSorted ∧ attached ≠ .null
  | _ => True

theorem reloadSchema_eq_iff (schema : Option Json) :
    reloadSchema schema = schema ↔
      ∀ attached, schema = some attached → attached.IsSorted ∧ attached ≠ .null := by
  cases schema with
  | none => exact ⟨fun _ => nofun, fun _ => rfl⟩
  | some attached =>
    rw [reloadSchema, getD_some]
    constructor
    · intro same other found
      rw [← some.inj found]
      split at same
      · cases same
      · rename_i present
        have sorted := some.inj same
        refine ⟨Json.toSorted_eq_iff.mp sorted, fun null => present ?_⟩
        rw [null]
        rfl
    · intro kept
      obtain ⟨sorted, present⟩ := kept attached rfl
      rw [Json.toSorted_eq_iff.mpr sorted]
      refine if_neg fun null => present ?_
      cases attached <;> first | rfl | cases null

theorem Parser.reload_eq_iff (parser : Parser) : parser.reload = parser ↔ parser.SchemaKept := by
  cases parser with
  | schema child name attached raw =>
    rw [Parser.reload, Parser.schema.injEq]
    simp only [true_and, and_true, reloadSchema_eq_iff]
    cases attached with
    | none => exact ⟨fun _ => trivial, fun _ => nofun⟩
    | some attached => exact ⟨fun kept => kept attached rfl, fun kept other found =>
      some.inj found ▸ kept⟩
  | _ => exact ⟨fun _ => trivial, fun _ => rfl⟩

structure Arena.InRange (arena : Arena) : Prop where
  rules : ∀ rule ∈ arena.rules, rule.2.toNat < arena.parsers.length
  root : arena.root = invalidParserId ∨ arena.root.toNat < arena.parsers.length

structure Arena.Same (left right : Arena) : Prop where
  parsers : left.parsers = right.parsers
  rules : ∀ name, left.rules.lookup name = right.rules.lookup name
  root : left.root = right.root

theorem getItems_serialize (parsers : List Parser) :
    (Json.array (parsers.map serializeParserVariant)).getItems deserializeParserVariant =
      .ok (parsers.map Parser.reload) :=
  mapM_written serializeParserVariant deserializeParserVariant Parser.reload deserialize_serialize
    parsers

theorem getEntries_rules (rules : List (String × ParserId)) :
    (Json.ofEntries (rules.map fun rule => (rule.1, jsonId rule.2))).getEntries Json.getSize =
      .ok (sortKeys rules) := by
  have read := mapM_written (fun rule : String × ParserId => (rule.1, jsonId rule.2))
    (fun entry => (entry.2.getSize).map fun value => (entry.1, value)) id
    (fun rule => by simp [Except.map]) (sortKeys rules)
  rw [List.map_id, ← sortKeys_map] at read
  exact read

theorem checkRules_of_inRange {size : Nat} {rules : List (String × ParserId)}
    (inRange : ∀ rule ∈ rules, rule.2.toNat < size) : checkRules size rules = .ok () := by
  have none_outside : rules.find? (fun rule => decide (size ≤ rule.2.toNat)) = none := by
    apply List.find?_eq_none.mpr
    intro rule member outside
    exact absurd (inRange rule member) (not_lt.mpr (of_decide_eq_true outside))
  rw [checkRules, none_outside]

theorem checkRoot_of_inRange {size : Nat} {root : ParserId}
    (inRange : root = invalidParserId ∨ root.toNat < size) : checkRoot size root = .ok () := by
  refine if_neg fun ⟨valid, outside⟩ => ?_
  rcases inRange with invalid | inside
  · exact valid invalid
  · exact absurd inside (not_lt.mpr outside)

theorem fromJson_toJson (arena : Arena) (inRange : arena.InRange) :
    Arena.fromJson arena.toJson =
      .ok ⟨arena.parsers.map Parser.reload, sortKeys arena.rules, arena.root⟩ := by
  have rulesInRange : ∀ rule ∈ sortKeys arena.rules, rule.2.toNat < arena.parsers.length :=
    fun rule member => inRange.rules rule (mem_sortKeys member)
  simp [Arena.fromJson, Arena.toJson, requireOf, require, List.lookup_cons, getItems_serialize, getEntries_rules, checkRules_of_inRange rulesInRange,
    checkRoot_of_inRange inRange.root]

theorem reloaded_same_iff (arena : Arena) :
    Arena.Same ⟨arena.parsers.map Parser.reload, sortKeys arena.rules, arena.root⟩ arena ↔
      ∀ parser ∈ arena.parsers, parser.SchemaKept := by
  have parsers_iff : arena.parsers.map Parser.reload = arena.parsers ↔
      ∀ parser ∈ arena.parsers, parser.SchemaKept := by
    have pointwise := @List.map_inj_left _ _ arena.parsers Parser.reload id
    rw [List.map_id] at pointwise
    exact pointwise.trans (forall₂_congr fun parser _ => parser.reload_eq_iff)
  constructor
  · intro same
    exact parsers_iff.mp same.parsers
  · intro kept
    exact ⟨parsers_iff.mpr kept, lookup_sortKeys arena.rules, rfl⟩

/-- Reloading gives the arena that was written exactly when every attached schema has sorted
keys and is not null. -/
theorem reload_same_iff (arena : Arena) (inRange : arena.InRange) :
    (∃ back, Arena.fromJson arena.toJson = .ok back ∧ back.Same arena) ↔
      ∀ parser ∈ arena.parsers, parser.SchemaKept := by
  rw [← reloaded_same_iff, fromJson_toJson arena inRange]
  constructor
  · rintro ⟨back, read, same⟩
    exact Except.ok.inj read ▸ same
  · intro same
    exact ⟨_, rfl, same⟩

/-- A schema that names the property `unit` before the property `city`. -/
def weatherSchema : Json :=
  .object [("properties", .object [("unit", .object [("type", .string "string")]),
    ("city", .object [("type", .string "string")])]), ("type", .string "object")]

def schemaArena : Arena :=
  ⟨[.any, .schema 0 "weather" (some weatherSchema) false, .rule "value" 1 false], [("value", 2)], 2⟩

theorem schemaArena_inRange : schemaArena.InRange := by
  refine ⟨fun rule member => ?_, Or.inr (by decide)⟩
  rw [List.mem_singleton.mp member]
  decide

theorem reload_same_iff_at_schemaArena :
    (∃ back, Arena.fromJson schemaArena.toJson = .ok back ∧ back.Same schemaArena) ↔
      ∀ parser ∈ schemaArena.parsers, parser.SchemaKept :=
  reload_same_iff schemaArena schemaArena_inRange

theorem schemaArena_not_reloaded :
    schemaArena.InRange ∧
      ¬ ∃ back, Arena.fromJson schemaArena.toJson = .ok back ∧ back.Same schemaArena := by
  refine ⟨schemaArena_inRange, fun ⟨back, read, same⟩ => ?_⟩
  rw [fromJson_toJson schemaArena schemaArena_inRange] at read
  have kept := (reloaded_same_iff schemaArena).mp (Except.ok.inj read ▸ same)
  have sorted := (kept _ (List.mem_cons_of_mem _ (List.mem_cons_self ..))).1
  have properties := sorted.2.1.1 ("city", .object [("type", .string "string")])
    (List.mem_singleton_self _)
  exact absurd properties (by decide)

end LlamaCpp.Peg
