import LlamaCpp.Schema.Gbnf

/-!
# Strings that are none of some names

The rule follows the names as far as they go and then takes any other character.  A backslash
is such a character, so that a name can be spelled with an escape.
-/

set_option autoImplicit false

namespace LlamaCpp.Schema

open LlamaCpp.Peg List

/-- What the first class of the rule `char` leaves out. -/
abbrev charExcluded : List Nat := quote :: backslash :: 0x7F :: range 0x20

def charRule : GbnfExpr :=
  .alt [.notClass charExcluded,
    .seq (.literal [backslash]) (.alt [oneOf (quote :: backslash :: codes "bfnrt"),
      .seq (.literal [0x75]) (repeated hexClass 4 4)])]

/-- The alternatives that the local function `visit` writes for the entries of one map. -/
def visitEntries : Children → List GbnfExpr
  | .nil => []
  | .node ch isWord children others =>
    .seq (.literal [ch])
      (match children with
      | .nil => if isWord then .seq charRule (.star charRule) else .literal []
      | .node c w below more => .alt (visitEntries (.node c w below more) ++
          [.seq (.notClass (quote :: (Children.node c w below more).keys)) (.star charRule)])) ::
      visitEntries others

def visitNode (children : Children) : GbnfExpr :=
  .alt (visitEntries children ++ [.seq (.notClass (quote :: children.keys)) (.star charRule)])

def notStrings (strings : List (List Nat)) : GbnfExpr :=
  let trie := Trie.ofWords strings
  .seq (.literal [quote]) (.seq
    (if trie.isWord then visitNode trie.children else optional (visitNode trie.children))
    (.seq (.literal [quote]) spaceRule))

def hexValue (ch : Nat) : Option Nat :=
  if 0x30 ≤ ch ∧ ch ≤ 0x39 then some (ch - 0x30)
  else if 0x41 ≤ ch ∧ ch ≤ 0x46 then some (ch - 0x37)
  else if 0x61 ≤ ch ∧ ch ≤ 0x66 then some (ch - 0x57)
  else none

def escapeValue (ch : Nat) : Option Nat := ((codes "\"\\/bfnrt").zip
  [quote, backslash, 0x2F, 0x08, 0x0C, 0x0A, 0x0D, 0x09]).lookup ch

/-- The value of the content of a JSON string, with a code unit for each `\u`. -/
def decode : List Nat → Option (List Nat)
  | [] => some []
  | ch :: rest =>
    if ch = backslash then
      match rest with
      | [] => none
      | [e] => (escapeValue e).map fun value => [value]
      | e :: a :: rest =>
        if e = 0x75 then
          match rest with
          | b :: c :: d :: rest => do
            let unit := (← hexValue a) * 4096 + (← hexValue b) * 256 + (← hexValue c) * 16 + (← hexValue d)
            return unit :: (← decode rest)
          | _ => none
        else do return (← escapeValue e) :: (← decode (a :: rest))
    else if ch = quote ∨ ch < 0x20 then none
    else (decode rest).map fun value => ch :: value

/-- Non-empty, of printable ASCII characters. -/
def Printable (text : List Nat) : Prop := text ≠ [] ∧ ∀ ch ∈ text, 0x20 ≤ ch ∧ ch ≤ 0x7E

/-- A printable name that a class can hold as it is. -/
def PlainName (name : List Nat) : Prop :=
  Printable name ∧ ∀ ch ∈ name, ch ∉ codes "\"\\]^-"

/-- A text is a string with a value, and whitespace. -/
def Spells (text value : List Nat) : Prop :=
  ∃ content space, text = quote :: content ++ quote :: space ∧ decode content = some value

/-- Every text of the rule has a value that is none of the names, and every such value has one. -/
def NotStringsRight (names : List (List Nat)) : Prop :=
  (∀ text, Generates (notStrings names) text → ∃ value ∉ names, Spells text value) ∧
    ∀ value, Printable value → value ∉ names →
      ∃ text, Generates (notStrings names) text ∧ Spells text value

variable {name : List Nat} {names : List (List Nat)}

def hexDigit (n : Nat) : Nat := if n < 10 then 0x30 + n else 0x57 + n

/-- The first character by its code unit, the others as they are. -/
def escaped : List Nat → List Nat
  | [] => []
  | ch :: rest =>
    backslash :: 0x75 :: 0x30 :: 0x30 :: hexDigit (ch / 16) :: hexDigit (ch % 16) :: rest

theorem hexDigit_spec : ∀ n : Fin 16, hexValue (hexDigit n) = some n.val ∧
    hexDigit n ∉ charExcluded := by
  decide

theorem plain_of_name (plain : PlainName name) : ∀ ch ∈ name, ch ∉ charExcluded := by
  intro ch member
  have bounds := plain.1.2 ch member
  have other := plain.2 ch member
  simp [codes] at other
  simp [quote, backslash]
  omega

theorem decode_plain (chars : List Nat)
    (plain : ∀ ch ∈ chars, ch ∉ charExcluded) :
    decode chars = some chars := by
  induction chars with
  | nil => rfl
  | cons ch chars ih =>
    have here := plain ch mem_cons_self
    simp only [mem_cons, mem_range, not_or, not_lt] at here
    rw [decode.eq_def]
    simp only [if_neg here.2.1, here.1, Nat.not_lt.mpr here.2.2.2, or_self, if_false,
      ih fun c member => plain c (mem_cons_of_mem _ member), Option.map_some]

theorem escaped_tail (plain : PlainName name) : ∀ ch ∈ (escaped name).tail, ch ∉ charExcluded := by
  cases name with
  | nil => nofun
  | cons ch rest =>
    have bounds := plain.1.2 ch mem_cons_self
    intro c member
    simp only [escaped, tail_cons, mem_cons] at member
    rcases member with rfl | rfl | rfl | rfl | rfl | inRest
    · decide
    · decide
    · decide
    · exact (hexDigit_spec ⟨ch / 16, by omega⟩).2
    · exact (hexDigit_spec ⟨ch % 16, by omega⟩).2
    · exact plain_of_name plain c (mem_cons_of_mem _ inRest)

theorem escaped_eq (plain : PlainName name) : escaped name = backslash :: (escaped name).tail := by
  cases name with
  | nil => exact absurd rfl plain.1.1
  | cons ch rest => rfl

theorem decode_escaped (plain : PlainName name) : decode (escaped name) = some name := by
  cases name with
  | nil => rfl
  | cons ch rest =>
    have bounds := plain.1.2 ch mem_cons_self
    have high := (hexDigit_spec ⟨ch / 16, by omega⟩).1
    have low := (hexDigit_spec ⟨ch % 16, by omega⟩).1
    have zero : hexValue 0x30 = some 0 := rfl
    have others := decode_plain rest fun c member =>
      plain_of_name plain c (mem_cons_of_mem _ member)
    have whole : 0 * 4096 + 0 * 256 + ch / 16 * 16 + ch % 16 = ch := by omega
    rw [escaped, decode.eq_def]
    simp only [high, low, zero, others, Option.bind_eq_bind, Option.bind_some, whole]
    rfl

theorem generates_chars {chars : List Nat}
    (plain : ∀ ch ∈ chars, ch ∉ charExcluded) :
    Generates (.star charRule) chars := by
  induction chars with
  | nil => exact .starNil _
  | cons ch chars ih =>
    exact .starMore (.alt mem_cons_self (.notClass (plain ch mem_cons_self)))
      (ih fun c member => plain c (mem_cons_of_mem _ member))

/-- The map of the root has first characters of names as keys, and a backslash is none. -/
theorem backslash_outside (plain : ∀ n ∈ names, PlainName n) :
    backslash ∉ quote :: (Trie.ofWords names).children.keys := by
  intro member
  rcases mem_cons.mp member with quoted | key
  · cases quoted
  · obtain ⟨-, n, isName, begins⟩ := ((Trie.ofWords_holds names).hasPath _).mp (Children.keys_iff.mp key)
    have inName := begins.subset (mem_singleton_self backslash)
    exact (plain n isName).2 _ inName (by decide)

theorem generates_escaped (plain : ∀ n ∈ names, PlainName n) (isName : name ∈ names) :
    Generates (notStrings names) (quote :: escaped name ++ [quote]) := by
  have visited : Generates (visitNode (Trie.ofWords names).children) (escaped name) := by
    rw [escaped_eq (plain _ isName)]
    exact .alt (mem_append_right _ mem_cons_self)
      (.seq (.notClass (backslash_outside plain))
        (generates_chars (escaped_tail (plain _ isName))))
  have inner : Generates (if (Trie.ofWords names).isWord = true
      then visitNode (Trie.ofWords names).children
      else optional (visitNode (Trie.ofWords names).children)) (escaped name) := by
    split
    · exact visited
    · exact .alt mem_cons_self visited
  exact .seq (u := [quote]) (.literal _) (.seq inner
    (.seq (.literal [quote]) (.alt mem_cons_self (.literal []))))

/-- Where the content has no quote, it ends before the last one. -/
theorem content_unique {content space other : List Nat} (free : quote ∉ other)
    (same : quote :: content ++ quote :: space = quote :: other ++ [quote]) : content = other := by
  rcases eq_nil_or_concat space with rfl | ⟨space, last, rfl⟩
  · simpa using same
  · have inner : content ++ quote :: space = other := by
      rw [cons_append, cons_append, cons.injEq, concat_eq_append, ← cons_append, ← append_assoc] at same
      exact (append_inj' same.2 rfl).1
    exact absurd (inner ▸ mem_append_right _ mem_cons_self) free

theorem not_right_of_mem (plain : ∀ n ∈ names, PlainName n) (isName : name ∈ names) :
    ¬ NotStringsRight names := by
  intro right
  obtain ⟨value, other, content, space, text, decoded⟩ := right.1 _ (generates_escaped plain isName)
  have free : quote ∉ escaped name := by
    rw [escaped_eq (plain _ isName), mem_cons, not_or]
    exact ⟨by decide, fun member => escaped_tail (plain _ isName) _ member mem_cons_self⟩
  rw [content_unique free text.symm, decode_escaped (plain _ isName)] at decoded
  exact other (Option.some.inj decoded ▸ isName)

/-- Whatever the names are, the rule generates each of them, spelled with an escape. -/
theorem notStrings_generates_names (some_ : names ≠ []) (plain : ∀ n ∈ names, PlainName n) :
    ¬ NotStringsRight names := by
  obtain ⟨name, isName⟩ := exists_mem_of_ne_nil names some_
  exact not_right_of_mem plain isName

theorem plainName_a : ∀ n ∈ [codes "a"], PlainName n := by
  unfold PlainName Printable
  decide

theorem notStrings_generates_names_at_a : ¬ NotStringsRight [codes "a"] :=
  notStrings_generates_names (by decide) plainName_a

/-- The rule for the name `a` generates it as `\u0061`. -/
theorem notStrings_generates_a :
    ¬ ∀ names, names ≠ [] → (∀ n ∈ names, PlainName n) → NotStringsRight names :=
  fun claimed => not_right_of_mem plainName_a mem_cons_self (claimed _ (by decide) plainName_a)

end LlamaCpp.Schema
