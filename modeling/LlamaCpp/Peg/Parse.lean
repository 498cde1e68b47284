import LlamaCpp.Lib.Asking
import LlamaCpp.Peg.Scan
import Mathlib.Data.Finite.Prod

/-!
# Parsing with an arena

A parser asks the arena to parse its children at positions and goes on with their results.
An identifier outside the arena and a missing rule throw.
-/

set_option autoImplicit false

namespace LlamaCpp.Peg

open LlamaCpp.Lib List

/-- A call of `common_peg_arena::parse`. -/
structure Site where
  id : ParserId
  pos : Nat
deriving DecidableEq

abbrev Exec := Asking Site ParseResult ParseResult

def parseSequence (startPos : Nat) : List ParserId → Nat → List AstNode → Exec
  | [], pos, nodes => .done ⟨.success, startPos, pos, nodes⟩
  | child :: rest, pos, nodes =>
    .ask ⟨child, pos⟩ fun result =>
      match result.type with
      | .fail => .done ⟨.fail, startPos, result.end_, []⟩
      | .needMoreInput => .done ⟨.needMoreInput, startPos, result.end_, nodes ++ result.nodes⟩
      | .success => parseSequence startPos rest result.end_ (nodes ++ result.nodes)

def parseChoice (startPos : Nat) : List ParserId → Exec
  | [] => .done ⟨.fail, startPos, startPos, []⟩
  | child :: rest =>
    .ask ⟨child, startPos⟩ fun result =>
      if result.type ≠ .fail then .done result else parseChoice startPos rest

/-- `common_peg_repetition_parser`. -/
structure RepetitionSpec where
  child : ParserId
  minCount : Int
  maxCount : Int

def repetitionEnd (spec : RepetitionSpec) (lenient : Bool) (input : List Byte)
    (startPos pos matchCount : Nat) (nodes : List AstNode) : ParseResult :=
  if 0 < spec.minCount ∧ matchCount < spec.minCount then
    if input.length ≤ pos ∧ lenient = true then ⟨.needMoreInput, startPos, pos, nodes⟩
    else ⟨.fail, startPos, pos, []⟩
  else ⟨.success, startPos, pos, nodes⟩

def parseRepetition (spec : RepetitionSpec) (lenient : Bool) (input : List Byte)
    (startPos pos matchCount : Nat) (nodes : List AstNode) : Exec :=
  if spec.maxCount = -1 ∨ matchCount < spec.maxCount then
    if input.length ≤ pos then
      .done (repetitionEnd spec lenient input startPos pos matchCount nodes)
    else
      .ask ⟨spec.child, pos⟩ fun result =>
        match result.type with
        | .success =>
          -- an empty match; no match ends before it starts
          if _empty : result.end_ ≤ pos then
            .done (repetitionEnd spec lenient input startPos pos matchCount nodes)
          else
            parseRepetition spec lenient input startPos result.end_ (matchCount + 1)
              (nodes ++ result.nodes)
        | .needMoreInput =>
          .done ⟨.needMoreInput, startPos, result.end_, nodes ++ result.nodes⟩
        | .fail => .done (repetitionEnd spec lenient input startPos pos matchCount nodes)
  else .done (repetitionEnd spec lenient input startPos pos matchCount nodes)
termination_by input.length - pos

def addNode (input : List Byte) (rule tag : String) (result : ParseResult) : ParseResult :=
  if result.type ≠ .fail then
    let text := if result.start < input.length then
      (input.drop result.start).take (result.end_ - result.start) else []
    ⟨result.type, result.start, result.end_,
      [.mk rule tag result.start result.end_ text result.nodes (result.type == .needMoreInput)]⟩
  else result

def Arena.getRule (arena : Arena) (name : String) : Option ParserId := arena.rules.lookup name

def parserExecutor (arena : Arena) (lenient : Bool) (input : List Byte) (startPos : Nat) :
    Parser → Exec
  | .epsilon => .done ⟨.success, startPos, startPos, []⟩
  | .start => .done ⟨if startPos = 0 then .success else .fail, startPos, startPos, []⟩
  | .end_ =>
    .done ⟨if input.length ≤ startPos then .success else .fail, startPos, startPos, []⟩
  | .literal literal => .done (parseLiteral lenient input startPos (bytesOf literal) startPos)
  | .sequence children => parseSequence startPos children startPos []
  | .choice children => parseChoice startPos children
  | .repetition child minCount maxCount =>
    parseRepetition ⟨child, minCount.toInt, maxCount.toInt⟩ lenient input startPos startPos 0 []
  | .and child => .ask ⟨child, startPos⟩ fun result => .done ⟨result.type, startPos, startPos, []⟩
  | .not child =>
    .ask ⟨child, startPos⟩ fun result =>
      match result.type with
      | .success => .done ⟨.fail, startPos, startPos, []⟩
      | .needMoreInput => .done ⟨.needMoreInput, startPos, startPos, []⟩
      | .fail => .done ⟨.success, startPos, startPos, []⟩
  | .any => .done (parseAny lenient input startPos)
  | .space => .done (parseSpace input startPos startPos)
  | .chars _ ranges negated minCount maxCount =>
    .done (parseChars ⟨ranges, negated, minCount.toInt, maxCount.toInt⟩ lenient input startPos
      startPos 0)
  | .string delimiter =>
    .done (parseString delimiter.toNat.toUInt8 lenient input startPos startPos)
  | .until_ delimiters => .done (parseUntil (trieOf delimiters) lenient input startPos startPos)
  | .schema child _ _ _ => .ask ⟨child, startPos⟩ .done
  | .rule name child _ => .ask ⟨child, startPos⟩ fun result => .done (addNode input name "" result)
  | .ref name =>
    match arena.getRule name with
    | none => .abort
    | some id => .ask ⟨id, startPos⟩ .done
  | .atomic child =>
    .ask ⟨child, startPos⟩ fun result =>
      .done (if result.type = .needMoreInput then { result with nodes := [] } else result)
  | .tag child tag => .ask ⟨child, startPos⟩ fun result => .done (addNode input "" tag result)
  | .gbnf child _ => .ask ⟨child, startPos⟩ .done

def Arena.execute (arena : Arena) (lenient : Bool) (input : List Byte) (site : Site) : Exec :=
  match arena.parsers[site.id.toNat]? with
  | none => .abort
  | some parser => parserExecutor arena lenient input site.pos parser

/-- `common_peg_arena::parse` of a parser, to a depth of `fuel` calls. -/
def Arena.parseAt (arena : Arena) (lenient : Bool) (input : List Byte) (fuel : Nat) (site : Site) :
    Option ParseResult :=
  Asking.eval (arena.execute lenient input) fuel site

/-- `common_peg_arena::parse` of the root. -/
def Arena.parse (arena : Arena) (lenient : Bool) (input : List Byte) (fuel : Nat) :
    Option ParseResult :=
  if arena.root = invalidParserId then none else arena.parseAt lenient input fuel ⟨arena.root, 0⟩

/-- The parse of the root returns `result`. -/
def Arena.Parses (arena : Arena) (lenient : Bool) (input : List Byte) (result : ParseResult) :
    Prop :=
  ∃ fuel, arena.parse lenient input fuel = some result

def Arena.Calls (arena : Arena) (lenient : Bool) (input : List Byte) : Site → Site → Prop :=
  Asking.Calls (arena.execute lenient input)

def Arena.NoLeftRecursion (arena : Arena) : Prop :=
  ∀ (lenient : Bool) (input : List Byte) (site : Site),
    ¬ Relation.TransGen (arena.Calls lenient input) site site

def Parser.children : Parser → List ParserId
  | .sequence children => children
  | .choice children => children
  | .repetition child _ _ => [child]
  | .and child => [child]
  | .not child => [child]
  | .schema child _ _ _ => [child]
  | .rule _ child _ => [child]
  | .atomic child => [child]
  | .tag child _ => [child]
  | .gbnf child _ => [child]
  | _ => []

structure Arena.Closed (arena : Arena) : Prop where
  children : ∀ parser ∈ arena.parsers, ∀ child ∈ parser.children,
    child.toNat < arena.parsers.length
  refs : ∀ name, .ref name ∈ arena.parsers →
    ∃ id, arena.getRule name = some id ∧ id.toNat < arena.parsers.length

section Regular

variable {input : List Byte} {lenient : Bool} {startPos : Nat} {oracle : Site → Option ParseResult}

variable {pos : Nat}

theorem repetitionEnd_regular {spec : RepetitionSpec} {matchCount : Nat} {nodes : List AstNode} :
    Regular lenient input pos
      (repetitionEnd spec lenient input startPos pos matchCount nodes) := by
  unfold repetitionEnd
  split_ifs with few ended
  · exact .more rfl ended.2
  · exact .fail rfl
  · exact .success rfl rfl

theorem addNode_type (rule tag : String) (result : ParseResult) :
    (addNode input rule tag result).type = result.type ∧
      (addNode input rule tag result).end_ = result.end_ := by
  unfold addNode
  by_cases kept : result.type ≠ .fail
  · rw [if_pos kept]
    exact ⟨rfl, rfl⟩
  · rw [if_neg kept]
    exact ⟨rfl, rfl⟩

theorem Regular.of_eq {result other : ParseResult} (regular : Regular lenient input pos result)
    (type : other.type = result.type) (ends : other.end_ = result.end_) :
    Regular lenient input pos other := by
  refine ⟨fun success => ?_, fun success bound => ?_, fun more => ?_⟩
  · rw [ends]
    exact regular.forward (type ▸ success)
  · rw [ends]
    exact regular.inside (type ▸ success) bound
  · exact regular.decided (type ▸ more)

structure RegularExec (lenient : Bool) (input : List Byte) (oracle : Site → Option ParseResult)
    (pos : Nat) (tree : Exec) : Prop where
  result : ∀ result, tree.run oracle = some result → Regular lenient input pos result
  asks : ∀ asked, tree.Asks oracle asked → pos ≤ input.length → asked.pos ≤ input.length

theorem RegularExec.done {result : ParseResult} (regular : Regular lenient input pos result) :
    RegularExec lenient input oracle pos (.done result) :=
  ⟨fun other runs => by cases runs; exact regular, fun _ asks => absurd asks id⟩

theorem RegularExec.abort : RegularExec lenient input oracle pos .abort :=
  ⟨fun _ runs => absurd runs (Option.some_ne_none _).symm, fun _ asks => absurd asks not_false⟩

theorem RegularExec.ask {site : Site} {next : ParseResult → Exec}
    (inside : pos ≤ input.length → site.pos ≤ input.length)
    (rest : ∀ answer, oracle site = some answer → RegularExec lenient input oracle pos (next answer)) :
    RegularExec lenient input oracle pos (.ask site next) := by
  constructor
  · intro result runs
    obtain ⟨answer, answered, later⟩ := Asking.run_ask_some runs
    exact (rest answer answered).result result later
  · intro asked asks bound
    rcases asks with here | ⟨answer, answered, later⟩
    · rw [here]
      exact inside bound
    · exact (rest answer answered).asks asked later bound

theorem RegularExec.after {later : Nat} {tree : Exec} (above : pos ≤ later)
    (within : pos ≤ input.length → later ≤ input.length)
    (rest : RegularExec lenient input oracle later tree) :
    RegularExec lenient input oracle pos tree :=
  ⟨fun result runs => (rest.result result runs).after above within,
    fun asked asks bound => rest.asks asked asks (within bound)⟩

section

variable (answers : ∀ site result, oracle site = some result → Regular lenient input site.pos result)
include answers

theorem parseSequence_regular
    (children : List ParserId) (pos : Nat) (nodes : List AstNode) :
    RegularExec lenient input oracle pos (parseSequence startPos children pos nodes) := by
  induction children generalizing pos nodes with
  | nil => exact .done (.success rfl rfl)
  | cons child rest ih =>
    refine .ask id fun answer answered => ?_
    have regular := answers _ answer answered
    cases type : answer.type with
    | fail => exact .done (.fail rfl)
    | needMoreInput => exact .done (.more rfl (regular.decided type))
    | success =>
      exact .after (regular.forward type) (regular.inside type)
        (ih answer.end_ (nodes ++ answer.nodes))

theorem parseChoice_regular
    (children : List ParserId) :
    RegularExec lenient input oracle startPos (parseChoice startPos children) := by
  induction children with
  | nil => exact .done (.fail rfl)
  | cons child rest ih =>
    refine .ask id fun answer answered => ?_
    split_ifs
    · exact .done (answers _ answer answered)
    · exact ih

theorem parseRepetition_regular
    (spec : RepetitionSpec) (pos matchCount : Nat) (nodes : List AstNode) :
    RegularExec lenient input oracle pos
      (parseRepetition spec lenient input startPos pos matchCount nodes) := by
  fun_induction parseRepetition spec lenient input startPos pos matchCount nodes with
  | case1 => exact .done repetitionEnd_regular
  | case2 pos matchCount nodes more inside ih =>
    refine .ask id fun answer answered => ?_
    have regular := answers _ answer answered
    cases type : answer.type with
    | fail => exact .done repetitionEnd_regular
    | needMoreInput => exact .done (.more rfl (regular.decided type))
    | success =>
      split_ifs with empty
      · exact .done repetitionEnd_regular
      · exact .after (regular.forward type) (regular.inside type) (ih answer empty)
  | case3 => exact .done repetitionEnd_regular

theorem RegularExec.child
    {id : ParserId} {finish : ParseResult → ParseResult}
    (kept : ∀ answer, Regular lenient input startPos answer →
      Regular lenient input startPos (finish answer)) :
    RegularExec lenient input oracle startPos
      (.ask ⟨id, startPos⟩ fun answer => .done (finish answer)) :=
  .ask (fun bound => bound) fun answer answered => .done (kept answer (answers _ answer answered))

end

theorem parserExecutor_regular (arena : Arena)
    (answers : ∀ site result, oracle site = some result → Regular lenient input site.pos result)
    (parser : Parser) :
    RegularExec lenient input oracle startPos
      (parserExecutor arena lenient input startPos parser) := by
  have node : ∀ (rule tag : String) (answer : ParseResult), Regular lenient input startPos answer →
      Regular lenient input startPos (addNode input rule tag answer) :=
    fun rule tag answer regular => regular.of_eq (addNode_type rule tag answer).1
      (addNode_type rule tag answer).2
  cases parser with
  | epsilon => exact .done (.success rfl rfl)
  | start =>
    simp only [parserExecutor]
    split_ifs
    · exact .done (.success rfl rfl)
    · exact .done (.fail rfl)
  | end_ =>
    simp only [parserExecutor]
    split_ifs
    · exact .done (.success rfl rfl)
    · exact .done (.fail rfl)
  | literal literal => exact .done (parseLiteral_regular _)
  | sequence children => exact parseSequence_regular answers children startPos []
  | choice children => exact parseChoice_regular answers children
  | repetition child minCount maxCount => exact parseRepetition_regular answers _ startPos 0 []
  | and child =>
    refine .child answers fun answer regular => ?_
    cases type : answer.type with
    | fail => exact .fail rfl
    | needMoreInput => exact .more rfl (regular.decided type)
    | success => exact .success rfl rfl
  | not child =>
    refine .ask id fun answer answered => ?_
    cases type : answer.type with
    | fail => exact .done (.success rfl rfl)
    | needMoreInput => exact .done (.more rfl ((answers _ answer answered).decided type))
    | success => exact .done (.fail rfl)
  | any => exact .done parseAny_regular
  | space => exact .done parseSpace_regular
  | chars pattern ranges negated minCount maxCount => exact .done parseChars_regular
  | string delimiter => exact .done parseString_regular
  | until_ delimiters => exact .done parseUntil_regular
  | schema child name schema raw => exact .child answers fun _ regular => regular
  | rule name child trigger => exact .child answers fun answer => node name "" answer
  | ref name =>
    simp only [parserExecutor]
    cases arena.getRule name with
    | none => exact .abort
    | some id => exact .child answers fun _ regular => regular
  | atomic child =>
    refine .child answers fun answer regular => ?_
    split_ifs
    · exact regular.of_eq rfl rfl
    · exact regular
  | tag child tag => exact .child answers fun answer => node "" tag answer
  | gbnf child grammar => exact .child answers fun _ regular => regular

theorem execute_regular (arena : Arena)
    (answers : ∀ site result, oracle site = some result → Regular lenient input site.pos result)
    (site : Site) :
    RegularExec lenient input oracle site.pos (arena.execute lenient input site) := by
  unfold Arena.execute
  split
  · exact .abort
  · exact parserExecutor_regular arena answers _

end Regular

theorem parseAt_regular (arena : Arena) (lenient : Bool) (input : List Byte) (fuel : Nat) (site : Site)
    (result : ParseResult) (parses : arena.parseAt lenient input fuel site = some result) :
    Regular lenient input site.pos result := by
  induction fuel generalizing site result with
  | zero => cases parses
  | succ fuel ih => exact (execute_regular arena ih site).result result parses

section Ends

variable {arena : Arena} {lenient : Bool} {input : List Byte} {startPos : Nat}
  {allowed : Site → Prop}

theorem parseSequence_asksOnly (children : List ParserId)
    (inside : ∀ child ∈ children, ∀ pos, allowed ⟨child, pos⟩) (pos : Nat) (nodes : List AstNode) :
    (parseSequence startPos children pos nodes).AsksOnly allowed := by
  induction children generalizing pos nodes with
  | nil => trivial
  | cons child rest ih =>
    refine .ask (inside child mem_cons_self pos) fun answer => ?_
    cases answer.type with
    | fail => trivial
    | needMoreInput => trivial
    | success => exact ih (fun other member => inside other (mem_cons_of_mem child member)) _ _

theorem parseChoice_asksOnly (children : List ParserId)
    (inside : ∀ child ∈ children, ∀ pos, allowed ⟨child, pos⟩) :
    (parseChoice startPos children).AsksOnly allowed := by
  induction children with
  | nil => trivial
  | cons child rest ih =>
    refine .ask (inside child mem_cons_self startPos) fun answer => ?_
    split_ifs
    · trivial
    · exact ih fun other member => inside other (mem_cons_of_mem child member)

theorem parseRepetition_asksOnly (spec : RepetitionSpec) (inside : ∀ pos, allowed ⟨spec.child, pos⟩)
    (pos matchCount : Nat) (nodes : List AstNode) :
    (parseRepetition spec lenient input startPos pos matchCount nodes).AsksOnly allowed := by
  fun_induction parseRepetition spec lenient input startPos pos matchCount nodes with
  | case1 => trivial
  | case2 pos matchCount nodes more before ih =>
    refine .ask (inside pos) fun answer => ?_
    cases answer.type with
    | fail => trivial
    | needMoreInput => trivial
    | success =>
      split_ifs with empty
      · trivial
      · exact ih answer empty
  | case3 => trivial

theorem parserExecutor_asksOnly {parser : Parser} (callable : ParserId → Prop)
    (children : ∀ child ∈ parser.children, callable child)
    (refs : ∀ name, parser = .ref name → ∃ id, arena.getRule name = some id ∧ callable id) :
    (parserExecutor arena lenient input startPos parser).AsksOnly fun site => callable site.id := by
  cases parser with
  | epsilon | start | end_ | literal | any | space | chars | string | until_ => trivial
  | sequence ids => exact parseSequence_asksOnly ids (fun child inside _ => children child inside) _ _
  | choice ids => exact parseChoice_asksOnly ids fun child inside _ => children child inside
  | repetition child minCount maxCount =>
    exact parseRepetition_asksOnly _ (fun _ => children child mem_cons_self) _ _ _
  | not child =>
    refine .ask (children child mem_cons_self) fun answer => ?_
    cases answer.type <;> trivial
  | and child | schema child | rule _ child | atomic child | tag child | gbnf child =>
    exact .ask (children child mem_cons_self) fun _ => trivial
  | ref name =>
    obtain ⟨id, found, inside⟩ := refs name rfl
    simp only [parserExecutor, found]
    exact .ask inside fun _ => trivial

variable {site : Site}

theorem execute_asksOnly (closed : arena.Closed) (inside : site.id.toNat < arena.parsers.length) :
    (arena.execute lenient input site).AsksOnly
      fun asked => asked.id.toNat < arena.parsers.length := by
  unfold Arena.execute
  rw [List.getElem?_eq_getElem inside]
  have member := getElem_mem inside
  exact parserExecutor_asksOnly (fun id => id.toNat < arena.parsers.length)
    (closed.children _ member) fun name same => closed.refs name (same ▸ member)

def Arena.sites (arena : Arena) (input : List Byte) : Set Site :=
  { site | site.id.toNat < arena.parsers.length ∧ site.pos ≤ input.length }

theorem Arena.sites_finite (arena : Arena) (input : List Byte) : (arena.sites input).Finite := by
  let pair : Site → Nat × Nat := fun site => (site.id.toNat, site.pos)
  have injective : Function.Injective pair := by
    intro first second same
    obtain ⟨ids, positions⟩ := Prod.mk.inj same
    cases first
    simp only at ids positions
    rw [UInt64.toNat_inj.mp ids, positions]
  have bounded : (Set.Iio arena.parsers.length ×ˢ Set.Iic input.length).Finite :=
    Set.Finite.prod (Set.finite_Iio _) (Set.finite_Iic _)
  exact (bounded.preimage injective.injOn).subset fun site inside => inside

theorem Arena.exists_parseAt (closed : arena.Closed) (acyclic : arena.NoLeftRecursion)
    (lenient : Bool) (input : List Byte) (inside : site ∈ arena.sites input) :
    ∃ result fuel, arena.parseAt lenient input fuel site = some result := by
  apply Asking.exists_evaluates (arena.sites_finite input)
  · intro question member asked called
    obtain ⟨fuel, asks⟩ := called
    refine ⟨Asking.AsksOnly.of_asks (execute_asksOnly closed member.1) asks, ?_⟩
    exact (execute_regular arena (parseAt_regular arena lenient input fuel) question).asks asked asks
      member.2
  · exact acyclic lenient input
  · exact fun question member => execute_asksOnly closed member.1
  · exact inside

def Arena.Backward (arena : Arena) : Prop :=
  ∀ (i : Nat) (parser : Parser), arena.parsers[i]? = some parser →
    (∀ name, parser ≠ .ref name) ∧ ∀ child ∈ parser.children, child.toNat < i

theorem Arena.Backward.closed (backward : arena.Backward) : arena.Closed := by
  constructor
  · intro parser member child isChild
    obtain ⟨i, found⟩ := mem_iff_getElem?.mp member
    have inside := (List.getElem?_eq_some_iff.mp found).1
    exact lt_trans ((backward i parser found).2 child isChild) inside
  · intro name member
    obtain ⟨i, found⟩ := mem_iff_getElem?.mp member
    exact absurd rfl ((backward i _ found).1 name)

theorem Arena.Backward.calls (backward : arena.Backward) {asked : Site}
    (called : arena.Calls lenient input site asked) : asked.id.toNat < site.id.toNat := by
  obtain ⟨fuel, asks⟩ := called
  unfold Arena.execute at asks
  cases found : arena.parsers[site.id.toNat]? with
  | none =>
    rw [found] at asks
    exact absurd asks id
  | some parser =>
    obtain ⟨notRef, children⟩ := backward _ parser found
    simp only [found] at asks
    exact (parserExecutor_asksOnly (fun id => id.toNat < site.id.toNat) children
      fun name same => absurd same (notRef name)).of_asks asks

theorem Arena.Backward.noLeftRecursion (backward : arena.Backward) : arena.NoLeftRecursion := by
  intro lenient input site cycle
  have lower : ∀ asked, Relation.TransGen (arena.Calls lenient input) site asked →
      asked.id.toNat < site.id.toNat := by
    intro asked chain
    induction chain with
    | single called => exact backward.calls called
    | tail _ called ih => exact lt_trans (backward.calls called) ih
  exact lt_irrefl _ (lower site cycle)

end Ends

end LlamaCpp.Peg
