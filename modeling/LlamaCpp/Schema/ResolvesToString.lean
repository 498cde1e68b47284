import LlamaCpp.Lib.Json
import LlamaCpp.Lib.Worklist

/-!
# Which schemas resolve to a string

The walk over a schema follows each reference once, and takes a reference that it has followed
already for none to a string.  That is right while the reference is still being followed, and wrong
where it was found to be a string before.
-/

set_option autoImplicit false

namespace LlamaCpp.Schema

open LlamaCpp.Lib LlamaCpp.Lib.Json List

/-- The source keeps `visited_refs` only.  The references whose walk is over, and those that were met
again after that, are recorded to speak about them. -/
structure Walk where
  visited : List String := []
  finished : List String := []
  again : List String := []

def Walk.meet (walk : Walk) (ref : String) : Walk :=
  if ref ∈ walk.finished then { walk with again := ref :: walk.again } else walk

def Walk.visit (walk : Walk) (ref : String) : Walk := { walk with visited := ref :: walk.visited }

def Walk.finish (walk : Walk) (ref : String) : Walk := { walk with finished := ref :: walk.finished }

/-- The reference is being followed. -/
def Walk.Going (walk : Walk) (ref : String) : Prop := ref ∈ walk.visited ∧ ref ∉ walk.finished

def isTheString (value : Json) (text : String) : Bool :=
  match value with
  | .string name => name == text
  | _ => false

def hasStringType (s : Json) : Bool :=
  match s.find? "type" with
  | some (.array items) => items.any (isTheString · "string")
  | some value => isTheString value "string"
  | none => false

/-- The tests of `const`, of `enum` and of the keywords for strings. -/
def impliesString (s : Json) : Bool :=
  (s.at_ "const").isString || (s.at_ "enum").elements.any isString ||
    s.contains "pattern" || s.contains "minLength" || s.contains "maxLength"

def isStringFormat (fmt : String) : Bool :=
  ["date", "time", "date-time", "uri", "email", "hostname", "ipv4", "ipv6", "uuid"].contains fmt ||
    "uuid".toList.isPrefixOf fmt.toList

/-- A loop over schemas that is left at the first one with this answer. -/
def untilAnswer (stop : Bool) (check : Json → Walk → Outcome (Bool × Walk)) :
    List Json → Walk → Outcome (Bool × Walk)
  | [], walk => .done (!stop, walk)
  | s :: rest, walk => (check s walk).bind fun (found, walk) =>
    if found = stop then .done (stop, walk) else untilAnswer stop check rest walk

/-- The tests of a schema that is no reference and has no type for strings. -/
def checkParts (check : Json → Walk → Outcome (Bool × Walk)) (s : Json) (walk : Walk) :
    Outcome (Bool × Walk) :=
  (untilAnswer true check (s.at_ "oneOf").elements walk).bind fun (one, walk) =>
    if one then .done (true, walk)
    else (untilAnswer true check (s.at_ "anyOf").elements walk).bind fun (any, walk) =>
      if any then .done (true, walk)
      else (if s.contains "allOf" then untilAnswer false check (s.at_ "allOf").elements walk
        else .done (false, walk)).bind fun (all, walk) =>
          if all || impliesString s then .done (true, walk)
          else match s.find? "format" with
          | some (.string fmt) => .done (isStringFormat fmt, walk)
          | some _ => .aborted
          | none => .done (false, walk)

/-- `check` in `resolves_to_string`; a member that is no string where one is asked for throws. -/
def checkSchema (refs : List (String × Json)) : Nat → Json → Walk → Outcome (Bool × Walk)
  | 0, _, _ => .timeout
  | fuel + 1, s, walk =>
    if !s.isObject then .done (false, walk)
    else match s.find? "$ref" with
    | some (.string ref) =>
      if ref ∈ walk.visited then .done (false, walk.meet ref)
      else match refs.lookup ref with
      | some target => (checkSchema refs fuel target (walk.visit ref)).bind fun (found, walk) =>
        .done (found, walk.finish ref)
      | none => .done (false, (walk.visit ref).finish ref)
    | some _ => .aborted
    | none =>
      if hasStringType s then .done (true, walk) else checkParts (checkSchema refs fuel) s walk

/-- The least fixpoint of the rules, where some references count as none to a string. -/
inductive Resolves (refs : List (String × Json)) (without : String → Prop) : Json → Prop
  | ref {s target : Json} {ref : String} (is : s.find? "$ref" = some (.string ref))
      (allowed : ¬without ref) (found : refs.lookup ref = some target)
      (resolves : Resolves refs without target) : Resolves refs without s
  | type {s : Json} (plain : s.find? "$ref" = none) (type : hasStringType s) : Resolves refs without s
  | alternative {s alt : Json} {key : String} (plain : s.find? "$ref" = none)
      (choice : key = "oneOf" ∨ key = "anyOf") (member : alt ∈ (s.at_ key).elements)
      (resolves : Resolves refs without alt) : Resolves refs without s
  | components {s : Json} (plain : s.find? "$ref" = none) (some_ : s.contains "allOf")
      (resolves : ∀ component ∈ (s.at_ "allOf").elements, Resolves refs without component) :
      Resolves refs without s
  | implied {s : Json} (plain : s.find? "$ref" = none) (implies : impliesString s) :
      Resolves refs without s
  | format {s : Json} {fmt : String} (plain : s.find? "$ref" = none)
      (is : s.find? "format" = some (.string fmt)) (string : isStringFormat fmt) :
      Resolves refs without s

/-- The schemas that a schema leads to. -/
inductive Meets (refs : List (String × Json)) : Json → Json → Prop
  | refl (s : Json) : Meets refs s s
  | ref {s target t : Json} {ref : String} (is : s.find? "$ref" = some (.string ref))
      (found : refs.lookup ref = some target) (more : Meets refs target t) : Meets refs s t
  | part {s part t : Json} {key : String} (keyIs : key ∈ ["oneOf", "anyOf", "allOf"])
      (member : part ∈ (s.at_ key).elements) (more : Meets refs part t) : Meets refs s t

/-- `$ref` and `format` are strings where they stand. -/
def Typed (refs : List (String × Json)) (s : Json) : Prop := ∀ t, Meets refs s t →
  ∀ key ∈ ["$ref", "format"], ∀ value, t.find? key = some value → ∃ text, value = .string text

variable {refs : List (String × Json)} {s t : Json} {walk next : Walk} {ref : String} {answer : Bool}

/-- By induction on the derivation: either it needs no step through the reference, or the target of
the reference is resolved without one. -/
theorem Resolves.avoid {without : String → Prop} {target : Json} (resolves : Resolves refs without s)
    (found : refs.lookup ref = some target) :
    Resolves refs (fun q => without q ∨ q = ref) s ∨
      Resolves refs (fun q => without q ∨ q = ref) target := by
  induction resolves with
  | @ref s target' name is allowed found' _ ih =>
    rcases ih with ih | ih
    · by_cases same : name = ref
      · subst same
        rw [found] at found'
        exact Or.inr (Option.some.inj found' ▸ ih)
      · exact Or.inl (.ref is (by rintro (no | no); exacts [allowed no, same no]) found' ih)
    · exact Or.inr ih
  | type plain type => exact Or.inl (.type plain type)
  | alternative plain choice member _ ih => exact ih.imp_left (.alternative plain choice member ·)
  | components plain some_ _ ih =>
    by_cases done : Resolves refs (fun q => without q ∨ q = ref) target
    · exact Or.inr done
    · exact Or.inl (.components plain some_ fun c member => (ih c member).resolve_right done)
  | implied plain implies => exact Or.inl (.implied plain implies)
  | format plain is string => exact Or.inl (.format plain is string)

theorem Resolves.mono {without fewer : String → Prop} (resolves : Resolves refs without s)
    (weaker : ∀ q, fewer q → without q) : Resolves refs fewer s := by
  induction resolves with
  | ref is allowed found _ ih => exact .ref is (fun no => allowed (weaker _ no)) found ih
  | type plain type => exact .type plain type
  | alternative plain choice member _ ih => exact .alternative plain choice member ih
  | components plain some_ _ ih => exact .components plain some_ ih
  | implied plain implies => exact .implied plain implies
  | format plain is string => exact .format plain is string

/-- The least fixpoint of the rules. -/
def ResolvesToString (refs : List (String × Json)) : Json → Prop := Resolves refs fun _ => False

/-- A reference to a string was met again when its own walk was over. -/
def MeetsStringAgain (refs : List (String × Json)) (walk : Walk) : Prop :=
  ∃ ref ∈ walk.again, ∃ target, refs.lookup ref = some target ∧ ResolvesToString refs target

structure Frame (walk next : Walk) : Prop where
  visited : walk.visited ⊆ next.visited
  going : next.Going = walk.Going
  again : walk.again ⊆ next.again

theorem Frame.refl (walk : Walk) : Frame walk walk := ⟨Subset.refl _, rfl, Subset.refl _⟩

theorem Frame.trans {last : Walk} (first : Frame walk next) (second : Frame next last) :
    Frame walk last :=
  ⟨List.Subset.trans first.visited second.visited, second.going.trans first.going,
    List.Subset.trans first.again second.again⟩

theorem Frame.meet (walk : Walk) (ref : String) : Frame walk (walk.meet ref) := by
  unfold Walk.meet
  split_ifs
  · exact ⟨Subset.refl _, rfl, subset_cons_self _ _⟩
  · exact .refl walk

/-- A walk that follows a new reference and ends with it. -/
theorem Frame.through (new : ref ∉ walk.visited) (inside : Frame (walk.visit ref) next) :
    Frame walk (next.finish ref) := by
  refine ⟨List.Subset.trans (subset_cons_self _ _) inside.visited, ?_, inside.again⟩
  funext q
  have going := congrFun inside.going q
  simp only [Walk.Going, Walk.visit, Walk.finish] at going ⊢
  by_cases same : q = ref
  · subst same
    simp [new]
  · simpa [same] using going

/-- The answer is right, unless a reference to a string was met again. -/
structure Right (refs : List (String × Json)) (going : String → Prop) (next : Walk) (s : Json)
    (answer : Bool) : Prop where
  sound : answer = true → ResolvesToString refs s
  complete : ¬MeetsStringAgain refs next → Resolves refs going s → answer = true

theorem MeetsStringAgain.mono (again : MeetsStringAgain refs walk) (frame : Frame walk next) :
    MeetsStringAgain refs next := by
  obtain ⟨ref, member, rest⟩ := again
  exact ⟨ref, frame.again member, rest⟩

theorem Right.later {going : String → Prop} {last : Walk} (right : Right refs going next s answer)
    (frame : Frame next last) : Right refs going last s answer :=
  ⟨right.sound, fun never => right.complete fun again => never (again.mono frame)⟩

/-- A walk settles with a right answer. -/
def Answers (refs : List (String × Json)) (s : Json) (walk : Walk)
    (check : Nat → Outcome (Bool × Walk)) : Prop :=
  ∃ answer next, Outcome.Settles check (answer, next) ∧ Frame walk next ∧
    Right refs walk.Going next s answer

/-- By induction on the schemas: the loop is left at one with the answer, or all have the other. -/
theorem untilAnswer_settles {check : Nat → Json → Walk → Outcome (Bool × Walk)} (stop : Bool)
    (items : List Json)
    (each : ∀ s ∈ items, ∀ next, Frame walk next → Answers refs s next fun fuel => check fuel s next) :
    ∃ answer next, Outcome.Settles (fun fuel => untilAnswer stop (check fuel) items walk) (answer, next) ∧
      Frame walk next ∧ ((answer = stop ∧ ∃ s ∈ items, Right refs walk.Going next s stop) ∨
        answer = !stop ∧ ∀ s ∈ items, Right refs walk.Going next s !stop) := by
  induction items generalizing walk with
  | nil => exact ⟨!stop, walk, Outcome.settles_done _, .refl walk, Or.inr ⟨rfl, nofun⟩⟩
  | cons s rest ih =>
    obtain ⟨found, between, settles, frame, right⟩ := each s mem_cons_self walk (.refl walk)
    by_cases same : found = stop
    · subst same
      refine ⟨found, between, settles.bind ?_, frame, Or.inl ⟨rfl, s, mem_cons_self, right⟩⟩
      simp only
      exact Outcome.settles_done _
    · obtain ⟨answer, next, settlesRest, frameRest, rests⟩ := ih fun t member last after =>
        each t (mem_cons_of_mem _ member) last (frame.trans after)
      rw [frame.going] at rests
      refine ⟨answer, next, settles.bind ?_, frame.trans frameRest, ?_⟩
      · simp only [if_neg same]
        exact settlesRest
      · rcases rests with ⟨rfl, t, member, rightRest⟩ | ⟨rfl, all⟩
        · exact Or.inl ⟨rfl, t, mem_cons_of_mem _ member, rightRest⟩
        · refine Or.inr ⟨rfl, forall_mem_cons.mpr ⟨?_, all⟩⟩
          exact Bool.eq_not.mpr same ▸ right.later frameRest

theorem anyAnswer_settles {check : Nat → Json → Walk → Outcome (Bool × Walk)} (items : List Json)
    (each : ∀ s ∈ items, ∀ next, Frame walk next → Answers refs s next fun fuel => check fuel s next) :
    ∃ found next, Outcome.Settles (fun fuel => untilAnswer true (check fuel) items walk) (found, next) ∧
      Frame walk next ∧ (found = true → ∃ s ∈ items, ResolvesToString refs s) ∧
        (¬MeetsStringAgain refs next → (∃ s ∈ items, Resolves refs walk.Going s) → found = true) := by
  obtain ⟨found, next, settles, frame, ⟨rfl, s, member, right⟩ | ⟨rfl, all⟩⟩ :=
    untilAnswer_settles true items each
  · exact ⟨_, next, settles, frame, fun _ => ⟨s, member, right.sound rfl⟩, fun _ _ => rfl⟩
  · refine ⟨_, next, settles, frame, nofun, fun never some_ => ?_⟩
    obtain ⟨s, member, resolves⟩ := some_
    exact (all s member).complete never resolves

theorem allAnswer_settles {check : Nat → Json → Walk → Outcome (Bool × Walk)} (items : List Json)
    (each : ∀ s ∈ items, ∀ next, Frame walk next → Answers refs s next fun fuel => check fuel s next) :
    ∃ all next, Outcome.Settles (fun fuel => untilAnswer false (check fuel) items walk) (all, next) ∧
      Frame walk next ∧ (all = true → ∀ s ∈ items, ResolvesToString refs s) ∧
        (¬MeetsStringAgain refs next → (∀ s ∈ items, Resolves refs walk.Going s) → all = true) := by
  obtain ⟨all, next, settles, frame, ⟨rfl, s, member, right⟩ | ⟨rfl, each⟩⟩ :=
    untilAnswer_settles false items each
  · exact ⟨_, next, settles, frame, nofun, fun never every =>
      right.complete never (every s member)⟩
  · exact ⟨_, next, settles, frame, fun _ s member => (each s member).sound rfl, fun _ _ => rfl⟩

def unseen (refs : List (String × Json)) (walk : Walk) : Nat :=
  ((refs.map Prod.fst).toFinset.filter (· ∉ walk.visited)).card

theorem unseen_le (frame : Frame walk next) : unseen refs next ≤ unseen refs walk :=
  Finset.card_le_card (Finset.monotone_filter_right _ fun _ _ new old => new (frame.visited old))

theorem unseen_visit_lt {target : Json} (new : ref ∉ walk.visited)
    (found : refs.lookup ref = some target) : unseen refs (walk.visit ref) < unseen refs walk := by
  refine Finset.card_lt_card ((Finset.ssubset_iff_of_subset ?_).mpr ⟨ref, ?_, ?_⟩)
  · exact Finset.monotone_filter_right _ fun _ _ new old => new (mem_cons_of_mem _ old)
  · rw [Finset.mem_filter, mem_toFinset]
    exact ⟨mem_map.mpr ⟨_, mem_of_lookup found, rfl⟩, new⟩
  · simp [Walk.visit]

theorem sizeOf_element_le (member : t ∈ s.elements) : sizeOf t ≤ sizeOf s := by
  cases s with
  | null => cases member
  | array items =>
    have := sizeOf_lt_of_mem (show t ∈ items from member)
    simp
    omega
  | object entries =>
    obtain ⟨⟨key, value⟩, entry, rfl⟩ := mem_map.mp member
    have := sizeOf_lt_of_mem entry
    simp at this ⊢
    omega
  | _ => rw [mem_singleton.mp member]

theorem sizeOf_part_lt {key : String} (member : t ∈ (s.at_ key).elements) : sizeOf t < sizeOf s := by
  have le := sizeOf_element_le member
  rw [at_] at member le
  cases found : s.find? key with
  | none =>
    rw [found] at member
    cases member
  | some value =>
    cases s with
    | object entries =>
      have := sizeOf_lt_of_mem (mem_of_lookup found)
      rw [found, Option.getD_some] at le
      simp at this ⊢
      omega
    | _ => cases found

theorem Resolves.of_ref {without : String → Prop} (is : s.find? "$ref" = some (.string ref))
    (resolves : Resolves refs without s) :
    ¬without ref ∧ ∃ target, refs.lookup ref = some target ∧ Resolves refs without target := by
  cases resolves with
  | ref is' allowed found resolves =>
    rw [is] at is'
    cases is'
    exact ⟨allowed, _, found, resolves⟩
  | _ plain => cases is.symm.trans plain

theorem Resolves.of_plain {without : String → Prop} (plain : s.find? "$ref" = none)
    (resolves : Resolves refs without s) : hasStringType s ∨
      (∃ alt ∈ (s.at_ "oneOf").elements, Resolves refs without alt) ∨
      (∃ alt ∈ (s.at_ "anyOf").elements, Resolves refs without alt) ∨
      (s.contains "allOf" ∧ ∀ c ∈ (s.at_ "allOf").elements, Resolves refs without c) ∨
      impliesString s ∨ ∃ fmt, s.find? "format" = some (.string fmt) ∧ isStringFormat fmt := by
  cases resolves with
  | ref is => cases is.symm.trans plain
  | type _ type => exact Or.inl type
  | alternative _ choice member resolves =>
    rcases choice with rfl | rfl
    · exact Or.inr (Or.inl ⟨_, member, resolves⟩)
    · exact Or.inr (Or.inr (Or.inl ⟨_, member, resolves⟩))
  | components _ some_ all => exact Or.inr (Or.inr (Or.inr (Or.inl ⟨some_, all⟩)))
  | implied _ implies => exact Or.inr (Or.inr (Or.inr (Or.inr (Or.inl implies))))
  | format _ is string => exact Or.inr (Or.inr (Or.inr (Or.inr (Or.inr ⟨_, is, string⟩))))

theorem Typed.part {key : String} (typed : Typed refs s) (keyIs : key ∈ ["oneOf", "anyOf", "allOf"])
    (member : t ∈ (s.at_ key).elements) : Typed refs t :=
  fun _ more => typed _ (.part keyIs member more)

theorem Resolves.isObject {without : String → Prop} (resolves : Resolves refs without s) :
    s.isObject := by
  cases s with
  | object entries => rfl
  | _ =>
    rcases resolves.of_plain rfl with yes | ⟨_, member, _⟩ | ⟨_, member, _⟩ | ⟨yes, _⟩ | yes | ⟨_, is, _⟩
    · cases yes
    · cases member
    · cases member
    · cases yes
    · cases yes
    · cases is

/-- What follows a reference, when smaller walks answer. -/
theorem checkSchema_ref (is : s.find? "$ref" = some (.string ref))
    (follow : ∀ target, refs.lookup ref = some target → ref ∉ walk.visited →
      Answers refs target (walk.visit ref) fun fuel => checkSchema refs fuel target (walk.visit ref)) :
    Answers refs s walk fun fuel => checkSchema refs fuel s walk := by
  have object : s.isObject = true := by
    cases s with
    | object entries => rfl
    | _ => cases is
  by_cases old : ref ∈ walk.visited
  · refine ⟨false, walk.meet ref, (Outcome.settles_done _).succ fun fuel => ?_, .meet walk ref, nofun,
      fun never resolves => ?_⟩
    · simp [checkSchema, object, is, old]
    · obtain ⟨allowed, target, found, resolved⟩ := resolves.of_ref is
      have ended : ref ∈ walk.finished := by
        by_contra going
        exact allowed ⟨old, going⟩
      refine absurd ⟨ref, ?_, target, found, resolved.mono fun _ => False.elim⟩ never
      simp [Walk.meet, ended]
  · cases found : refs.lookup ref with
    | none =>
      refine ⟨false, (walk.visit ref).finish ref, (Outcome.settles_done _).succ fun fuel => ?_,
        .through old (.refl _), nofun, fun _ resolves => ?_⟩
      · simp [checkSchema, object, is, old, found]
      · obtain ⟨-, target, found', -⟩ := resolves.of_ref is
        cases found.symm.trans found'
    | some target =>
      obtain ⟨answer, next, settles, frame, right⟩ := follow target found old
      have ends : Outcome.Settles (fun fuel => (checkSchema refs fuel target (walk.visit ref)).bind
          fun (found, walk) => .done (found, walk.finish ref)) (answer, next.finish ref) :=
        settles.bind (Outcome.settles_done _)
      refine ⟨answer, next.finish ref, ends.succ fun fuel => ?_, .through old frame,
        fun yes => .ref is not_false found (right.sound yes), fun never resolves => ?_⟩
      · simp [checkSchema, object, is, old, found]
      · obtain ⟨-, target', found', resolved⟩ := resolves.of_ref is
        obtain rfl := Option.some.inj (found.symm.trans found')
        have avoiding := (resolved.avoid found).elim id id
        refine right.complete never (avoiding.mono fun q going => ?_)
        rcases mem_cons.mp going.1 with rfl | earlier
        · exact Or.inr rfl
        · exact Or.inl ⟨earlier, going.2⟩

/-- The tests of a schema without a reference are right, when the walks of its parts are. -/
theorem checkParts_answers {check : Nat → Json → Walk → Outcome (Bool × Walk)} (typed : Typed refs s)
    (plain : s.find? "$ref" = none) (type : ¬hasStringType s)
    (part : ∀ key ∈ ["oneOf", "anyOf", "allOf"], ∀ t ∈ (s.at_ key).elements, ∀ next, Frame walk next →
      Answers refs t next fun fuel => check fuel t next) :
    Answers refs s walk fun fuel => checkParts (check fuel) s walk := by
  obtain ⟨one, afterOne, settlesOne, frameOne, oneSound, oneComplete⟩ :=
    anyAnswer_settles _ (part "oneOf" (by simp))
  cases one with
  | true =>
    obtain ⟨alt, member, resolves⟩ := oneSound rfl
    exact ⟨true, afterOne, settlesOne.bind (Outcome.settles_done _), frameOne,
      fun _ => .alternative plain (Or.inl rfl) member resolves, fun _ _ => rfl⟩
  | false =>
    obtain ⟨any, afterAny, settlesAny, frameAny, anySound, anyComplete⟩ :=
      anyAnswer_settles _ fun t member next frame =>
        part "anyOf" (by simp) t member next (frameOne.trans frame)
    have frameTwo := frameOne.trans frameAny
    cases any with
    | true =>
      obtain ⟨alt, member, resolves⟩ := anySound rfl
      exact ⟨true, afterAny, settlesOne.bind (settlesAny.bind (Outcome.settles_done _)), frameTwo,
        fun _ => .alternative plain (Or.inr rfl) member resolves, fun _ _ => rfl⟩
    | false =>
      obtain ⟨all, last, settlesAll, frameAll, allSound, allComplete⟩ : ∃ all last,
          Outcome.Settles (fun fuel => if s.contains "allOf" then
            untilAnswer false (check fuel) (s.at_ "allOf").elements afterAny
            else .done (false, afterAny)) (all, last) ∧ Frame afterAny last ∧
          (all = true → s.contains "allOf" ∧ ∀ c ∈ (s.at_ "allOf").elements, ResolvesToString refs c) ∧
          (¬MeetsStringAgain refs last → s.contains "allOf" →
            (∀ c ∈ (s.at_ "allOf").elements, Resolves refs walk.Going c) → all = true) := by
        by_cases some_ : s.contains "allOf"
        · obtain ⟨all, last, settles, frame, sound, complete⟩ :=
            allAnswer_settles _ fun t member next frame =>
              part "allOf" (by simp) t member next (frameTwo.trans frame)
          rw [frameTwo.going] at complete
          simp only [if_pos some_]
          exact ⟨all, last, settles, frame, fun yes => ⟨some_, sound yes⟩, fun never _ => complete never⟩
        · simp only [if_neg some_]
          exact ⟨false, afterAny, Outcome.settles_done _, .refl _, nofun, fun _ no => absurd no some_⟩
      have frame := frameTwo.trans frameAll
      obtain ⟨answer, ends, sound, complete⟩ : ∃ answer, (if all || impliesString s then
          Outcome.done (true, last) else match s.find? "format" with
          | some (.string fmt) => .done (isStringFormat fmt, last)
          | some _ => .aborted
          | none => .done (false, last)) = .done (answer, last) ∧
          (answer = true → ResolvesToString refs s) ∧
          (¬MeetsStringAgain refs last → Resolves refs walk.Going s → answer = true) := by
        by_cases early : (all || impliesString s) = true
        · refine ⟨true, if_pos early, fun _ => ?_, fun _ _ => rfl⟩
          rcases Bool.or_eq_true_iff.mp early with yes | implies
          · exact .components plain (allSound yes).1 (allSound yes).2
          · exact .implied plain implies
        · rw [if_neg early]
          have byFormat : ¬MeetsStringAgain refs last → Resolves refs walk.Going s →
              ∃ fmt, s.find? "format" = some (.string fmt) ∧ isStringFormat fmt := by
            intro never resolves
            have neverAny := fun again => never (MeetsStringAgain.mono again frameAll)
            rcases resolves.of_plain plain with yes | some_ | some_ | ⟨some_, every⟩ | implies | found
            · exact absurd yes type
            · cases oneComplete (fun again => neverAny (again.mono frameAny)) some_
            · cases anyComplete neverAny (frameOne.going.symm ▸ some_)
            · exact absurd (Bool.or_eq_true_iff.mpr (Or.inl (allComplete never some_ every))) early
            · exact absurd (Bool.or_eq_true_iff.mpr (Or.inr implies)) early
            · exact found
          cases format : s.find? "format" with
          | none =>
            refine ⟨false, rfl, nofun, fun never resolves => ?_⟩
            obtain ⟨fmt, is, -⟩ := byFormat never resolves
            cases format.symm.trans is
          | some value =>
            obtain ⟨fmt, rfl⟩ := typed s (.refl s) "format" (by simp) value format
            refine ⟨isStringFormat fmt, rfl, fun yes => .format plain format yes, fun never resolves => ?_⟩
            obtain ⟨fmt', is, yes⟩ := byFormat never resolves
            cases format.symm.trans is
            exact yes
      exact ⟨answer, last, settlesOne.bind (settlesAny.bind (settlesAll.bind
        ⟨0, fun _ _ => ends⟩)), frame, sound, complete⟩

/-- By induction on how many references are not visited yet, and on the size of the schema. -/
theorem checkSchema_answers (left : Nat) : ∀ s walk, unseen refs walk ≤ left → Typed refs s →
    Answers refs s walk fun fuel => checkSchema refs fuel s walk := by
  induction left using Nat.strong_induction_on with
  | _ left ihRefs =>
    intro s
    induction size : sizeOf s using Nat.strong_induction_on generalizing s with
    | _ size ih =>
      subst size
      intro walk few typed
      by_cases object : s.isObject
      · cases is : s.find? "$ref" with
        | some value =>
          obtain ⟨ref, rfl⟩ := typed s (.refl s) "$ref" (by simp) value is
          refine checkSchema_ref is fun target found new => ?_
          exact ihRefs _ ((unseen_visit_lt new found).trans_le few) target _ le_rfl
            fun _ more => typed _ (.ref is found more)
        | none =>
          by_cases type : hasStringType s
          · refine ⟨true, walk, (Outcome.settles_done _).succ fun fuel => ?_, .refl walk,
              fun _ => .type is type, fun _ _ => rfl⟩
            simp [checkSchema, object, is, type]
          · obtain ⟨answer, next, settles, rest⟩ := @checkParts_answers refs s walk _ typed is type
              fun key keyIs t member next frame => ih _ (sizeOf_part_lt member) t rfl next
                ((unseen_le frame).trans few) fun _ more => typed _ (.part keyIs member more)
            refine ⟨answer, next, settles.succ fun fuel => ?_, rest⟩
            simp [checkSchema, object, is, type]
      · refine ⟨false, walk, (Outcome.settles_done _).succ fun fuel => ?_, .refl walk, nofun,
          fun _ resolves => ?_⟩
        · simp [checkSchema, object]
        · exact absurd resolves.isObject object

def stringSchema : Json := .object [("type", .string "string")]

theorem typed_stringSchema : Typed [] stringSchema := by
  intro t met
  cases met with
  | refl =>
    intro key keyIs value found
    simp only [mem_cons, not_mem_nil, or_false] at keyIs
    rcases keyIs with rfl | rfl <;> cases found
  | ref is => cases is
  | part keyIs member =>
    simp only [mem_cons, not_mem_nil, or_false] at keyIs
    rcases keyIs with rfl | rfl | rfl <;> cases member

def refToA : Json := .object [("$ref", .string "#/$defs/A")]

end LlamaCpp.Schema
