import LlamaCpp.Lib.Json

/-!
# Parser arenas and their JSON form

An arena is written with the keys of every object sorted and read back field by field.
What is read back is the arena itself but for the attached schemas, whose keys are sorted.
-/

set_option autoImplicit false

namespace LlamaCpp.Peg

open LlamaCpp.Lib

/-- `common_peg_parser_id`, a `size_t`. -/
abbrev ParserId := UInt64

def invalidParserId : ParserId := -1

structure CharRange where
  start : UInt32
  end_ : UInt32
deriving DecidableEq

/-- `common_peg_parser_variant`; a `char` is a character of one byte. -/
inductive Parser
  | epsilon
  | start
  | end_
  | literal (literal : String)
  | sequence (children : List ParserId)
  | choice (children : List ParserId)
  | repetition (child : ParserId) (minCount maxCount : Int32)
  | and (child : ParserId)
  | not (child : ParserId)
  | any
  | space
  | chars (pattern : String) (ranges : List CharRange) (negated : Bool) (minCount maxCount : Int32)
  | string (delimiter : Char)
  | until_ (delimiters : List String)
  | schema (child : ParserId) (name : String) (schema : Option Json) (raw : Bool)
  | rule (name : String) (child : ParserId) (trigger : Bool)
  | ref (name : String)
  | atomic (child : ParserId)
  | tag (child : ParserId) (tag : String)
  | gbnf (child : ParserId) (grammar : String)

/-- `common_peg_arena`. -/
structure Arena where
  parsers : List Parser
  rules : List (String × ParserId)
  root : ParserId

def jsonSize (n : Nat) : Json := .number (.unsigned n)

def jsonId (id : ParserId) : Json := jsonSize id.toNat

def jsonInt (n : Int32) : Json := .number (.integer n.toInt)

def jsonRange (range : CharRange) : Json :=
  .ofEntries [("start", jsonSize range.start.toNat), ("end", jsonSize range.end_.toNat)]

def serializeParserVariant : Parser → Json
  | .epsilon => .ofEntries [("type", .string "epsilon")]
  | .start => .ofEntries [("type", .string "start")]
  | .end_ => .ofEntries [("type", .string "end")]
  | .literal literal => .ofEntries [("type", .string "literal"), ("literal", .string literal)]
  | .sequence children =>
    .ofEntries [("type", .string "sequence"), ("children", .array (children.map jsonId))]
  | .choice children =>
    .ofEntries [("type", .string "choice"), ("children", .array (children.map jsonId))]
  | .repetition child minCount maxCount =>
    .ofEntries [("type", .string "repetition"), ("child", jsonId child),
      ("min_count", jsonInt minCount), ("max_count", jsonInt maxCount)]
  | .and child => .ofEntries [("type", .string "and"), ("child", jsonId child)]
  | .not child => .ofEntries [("type", .string "not"), ("child", jsonId child)]
  | .any => .ofEntries [("type", .string "any")]
  | .space => .ofEntries [("type", .string "space")]
  | .chars pattern ranges negated minCount maxCount =>
    .ofEntries [("type", .string "chars"), ("pattern", .string pattern),
      ("ranges", .array (ranges.map jsonRange)), ("negated", .bool negated),
      ("min_count", jsonInt minCount), ("max_count", jsonInt maxCount)]
  | .string delimiter =>
    .ofEntries [("type", .string "string"), ("delimiter", .string (String.singleton delimiter))]
  | .until_ delimiters =>
    .ofEntries [("type", .string "until"), ("delimiters", .array (delimiters.map .string))]
  | .schema child name schema raw =>
    .ofEntries [("type", .string "schema"), ("child", jsonId child), ("name", .string name),
      ("schema", (schema.getD .null).toSorted), ("raw", .bool raw)]
  | .rule name child trigger =>
    .ofEntries [("type", .string "rule"), ("name", .string name), ("child", jsonId child),
      ("trigger", .bool trigger)]
  | .ref name => .ofEntries [("type", .string "ref"), ("name", .string name)]
  | .atomic child => .ofEntries [("type", .string "atomic"), ("child", jsonId child)]
  | .tag child tag =>
    .ofEntries [("type", .string "tag"), ("child", jsonId child), ("tag", .string tag)]
  | .gbnf child grammar =>
    .ofEntries [("type", .string "gbnf"), ("child", jsonId child), ("grammar", .string grammar)]

def Arena.toJson (arena : Arena) : Json :=
  .ofEntries [("parsers", .array (arena.parsers.map serializeParserVariant)),
    ("rules", .ofEntries (arena.rules.map fun rule => (rule.1, jsonId rule.2))),
    ("root", jsonId arena.root)]

def require (value : Json) (fields : List String) (message : String) : Except String Unit :=
  if fields.all value.contains then .ok () else .error message

def requireOf (value : Json) (field : String) (hasType : Json → Bool) (message : String) :
    Except String Unit :=
  if value.contains field && hasType (value.at_ field) then .ok () else .error message

def readRange (value : Json) : Except String CharRange := do
  require value ["start", "end"] "char_range missing 'start' or 'end' field"
  let start ← (value.at_ "start").getUInt32
  let end_ ← (value.at_ "end").getUInt32
  return ⟨start, end_⟩

def readRepetition (value : Json) : Except String Parser := do
  require value ["child", "min_count", "max_count"] "repetition parser missing required fields"
  let child ← (value.at_ "child").getSize
  let minCount ← (value.at_ "min_count").getInt
  let maxCount ← (value.at_ "max_count").getInt
  return .repetition child minCount maxCount

def readChars (value : Json) : Except String Parser := do
  require value ["pattern", "ranges", "negated", "min_count", "max_count"]
    "chars parser missing required fields"
  let pattern ← (value.at_ "pattern").getString
  let negated ← (value.at_ "negated").getBool
  let minCount ← (value.at_ "min_count").getInt
  let maxCount ← (value.at_ "max_count").getInt
  let ranges ← (value.at_ "ranges").elements.mapM readRange
  return .chars pattern ranges negated minCount maxCount

def readString (value : Json) : Except String Parser := do
  require value ["delimiter"] "string parser missing delimiter field."
  let delimiter ← (value.at_ "delimiter").getString
  match delimiter.toList with
  | [] => .error "string parser delimiter is empty."
  | first :: _ => return .string first

def readSchema (value : Json) : Except String Parser := do
  require value ["child", "name", "schema", "raw"] "schema parser missing required fields"
  let child ← (value.at_ "child").getSize
  let name ← (value.at_ "name").getString
  let raw ← (value.at_ "raw").getBool
  let schema := if (value.at_ "schema").isNull then none else some (value.at_ "schema")
  return .schema child name schema raw

def readRule (value : Json) : Except String Parser := do
  require value ["name", "child", "trigger"] "rule parser missing required fields"
  let name ← (value.at_ "name").getString
  let child ← (value.at_ "child").getSize
  let trigger ← (value.at_ "trigger").getBool
  return .rule name child trigger

def readChild (value : Json) (build : ParserId → Parser) (message : String) : Except String Parser := do
  require value ["child"] message
  let child ← (value.at_ "child").getSize
  return build child

def readChildText (value : Json) (field : String) (build : ParserId → String → Parser)
    (message : String) : Except String Parser := do
  require value ["child", field] message
  let child ← (value.at_ "child").getSize
  let text ← (value.at_ field).getString
  return build child text

def readText (value : Json) (field : String) (build : String → Parser) (message : String) :
    Except String Parser := do
  requireOf value field Json.isString message
  let text ← (value.at_ field).getString
  return build text

def readChildren (value : Json) (build : List ParserId → Parser) (message : String) :
    Except String Parser := do
  requireOf value "children" Json.isArray message
  let children ← (value.at_ "children").getItems Json.getSize
  return build children

def readUntil (value : Json) : Except String Parser := do
  requireOf value "delimiters" Json.isArray "until parser missing or invalid 'delimiters' field"
  let delimiters ← (value.at_ "delimiters").getItems Json.getString
  return .until_ delimiters

/-- The dispatch of `deserialize_parser_variant` on the type. -/
def readType (value : Json) (type : String) : Except String Parser :=
  if type = "epsilon" then .ok .epsilon
  else if type = "start" then .ok .start
  else if type = "end" then .ok .end_
  else if type = "literal" then
    readText value "literal" .literal "literal parser missing or invalid 'literal' field"
  else if type = "sequence" then
    readChildren value .sequence "sequence parser missing or invalid 'children' field"
  else if type = "choice" then
    readChildren value .choice "choice parser missing or invalid 'children' field"
  else if type = "repetition" then readRepetition value
  else if type = "and" then readChild value .and "and parser missing 'child' field"
  else if type = "not" then readChild value .not "not parser missing 'child' field"
  else if type = "any" then .ok .any
  else if type = "space" then .ok .space
  else if type = "chars" then readChars value
  else if type = "string" then readString value
  else if type = "until" then readUntil value
  else if type = "schema" then readSchema value
  else if type = "rule" then readRule value
  else if type = "ref" then readText value "name" .ref "ref parser missing or invalid 'name' field"
  else if type = "atomic" then readChild value .atomic "tag parser missing required fields"
  else if type = "tag" then readChildText value "tag" .tag "tag parser missing required fields"
  else if type = "gbnf" then
    readChildText value "grammar" .gbnf "gbnf parser missing required fields"
  else .error ("Unknown parser type: " ++ type)

def deserializeParserVariant (value : Json) : Except String Parser := do
  requireOf value "type" Json.isString "Parser variant JSON missing or invalid 'type' field"
  let type ← (value.at_ "type").getString
  readType value type

def checkRules (size : Nat) (rules : List (String × ParserId)) : Except String Unit :=
  match rules.find? fun rule => decide (size ≤ rule.2.toNat) with
  | some rule =>
    .error ("Rule '" ++ rule.1 ++ "' references invalid parser ID: " ++ toString rule.2)
  | none => .ok ()

def checkRoot (size : Nat) (root : ParserId) : Except String Unit :=
  if root ≠ invalidParserId ∧ size ≤ root.toNat then
    .error ("Root references invalid parser ID: " ++ toString root)
  else .ok ()

def Arena.fromJson (value : Json) : Except String Arena := do
  requireOf value "parsers" Json.isArray "JSON missing or invalid 'parsers' array"
  requireOf value "rules" Json.isObject "JSON missing or invalid 'rules' object"
  require value ["root"] "JSON missing 'root' field"
  let parsers ← (value.at_ "parsers").getItems deserializeParserVariant
  let rules ← (value.at_ "rules").getEntries Json.getSize
  checkRules parsers.length rules
  let root ← (value.at_ "root").getSize
  checkRoot parsers.length root
  return ⟨parsers, rules, root⟩

end LlamaCpp.Peg
