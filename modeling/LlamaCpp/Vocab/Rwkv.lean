import LlamaCpp.Vocab.NaiveTrie

/-!
# The RWKV tokenizer

The trie is walked from a position for as long as the text follows it, and the position goes
back to the end of the last token on the way.  Positions have 32 bits.  The text is read as a
`std::string`: at its size it has a terminator, and a read behind that one is an error.
-/

set_option autoImplicit false

namespace LlamaCpp.Vocab

open LlamaCpp.Lib List Option

structure Unescaping where
  output : Bytes := []
  escaping : Bool := false
  hexRemaining : Nat := 0
  hexAcc : UInt8 := 0

/-- The value of a hexadecimal digit; a `char` from 128 on is negative. -/
def rwkvHexValue (c : UInt8) : UInt8 := if 97 ≤ c ∧ c < 128 then c - 97 + 10 else c - 48

def unescapeStep (state : Unescaping) (c : UInt8) : Unescaping :=
  if state.hexRemaining ≠ 0 then
    let hexAcc := state.hexAcc <<< 4 + rwkvHexValue c
    if state.hexRemaining - 1 = 0 then
      { state with output := state.output ++ [hexAcc], hexRemaining := 0, hexAcc := 0 }
    else { state with hexRemaining := state.hexRemaining - 1, hexAcc := hexAcc }
  else if state.escaping then
    if c = 116 then { state with output := state.output ++ [9], escaping := false }
    else if c = 110 then { state with output := state.output ++ [10], escaping := false }
    else if c = 114 then { state with output := state.output ++ [13], escaping := false }
    else if c = 120 then { state with hexRemaining := 2, escaping := false }
    else { state with output := state.output ++ [c], escaping := false }
  else if c = 92 then { state with escaping := true }
  else { state with output := state.output ++ [c] }

def llamaUnescapeRwkvToken (escaped : Bytes) : Bytes := (escaped.foldl unescapeStep {}).output

/-- The texts of a vocabulary with their tokens, as `llm_tokenizer_rwkv` inserts them. -/
def rwkvEntries (texts : List Bytes) : List (Bytes × Int) :=
  texts.zipIdx.map fun entry => (llamaUnescapeRwkvToken entry.1, (entry.2 : Int))

inductive RwkvError
  | outOfFuel
  | overread
deriving DecidableEq

/-- `text[i]` for a `std::string`. -/
def readAt (text : Bytes) (i : Nat) : Except RwkvError UInt8 :=
  if i < text.length then .ok (text.getD i 0)
  else if i = text.length then .ok 0
  else .error .overread

/-- The loop that walks the trie, from a node on that `position` led to. -/
def walkToken (text : Bytes) :
    Nat → NaiveTrie Int → UInt32 → Int → UInt32 → Except RwkvError (Int × UInt32)
  | 0, _, _, _, _ => .error .outOfFuel
  | fuel + 1, node, position, tokenId, tokenLength => do
      let best := match node.value with
        | some value => (value, position + 1)
        | none => (tokenId, tokenLength)
      let c ← readAt text (position + 1).toNat
      match node.traverse c with
      | none => .ok best
      | some child => walkToken text fuel child (position + 1) best.1 best.2

/-- The loop of `llm_tokenizer_rwkv_session::tokenize`. -/
def rwkvLoop (trie : NaiveTrie Int) (tokenUnk : Int) (text : Bytes) :
    Nat → UInt32 → List Int → Except RwkvError (List Int)
  | 0, _, _ => .error .outOfFuel
  | fuel + 1, position, output =>
    if position.toNat < text.length then do
      let c ← readAt text position.toNat
      match trie.traverse c with
      | none => rwkvLoop trie tokenUnk text fuel (position + 1) (output ++ [tokenUnk])
      | some node => do
          let found ← walkToken text fuel node position 0 0
          rwkvLoop trie tokenUnk text fuel found.2 (output ++ [found.1])
    else .ok output

/-- `llm_tokenizer_rwkv_session::tokenize`, for as many rounds as there is fuel. -/
def rwkvTokenize (texts : List Bytes) (tokenUnk : Int) (text : Bytes) (fuel : Nat) :
    Except RwkvError (List Int) :=
  rwkvLoop (NaiveTrie.ofEntries (rwkvEntries texts)) tokenUnk text fuel 0 []

section

variable (entries : List (Bytes × Int)) (tokenUnk : Int)

structure LongestToken (rest text : Bytes) (token : Int) : Prop where
  nonempty : text ≠ []
  isToken : NaiveTrie.lastValue entries text = some token
  begins : text <+: rest
  longest : ∀ entry ∈ entries, entry.1 <+: rest → entry.1.length ≤ text.length

inductive Greedy : Bytes → List Int → Prop
  | done : Greedy [] []
  | token {text rest : Bytes} {token : Int} {more : List Int}
      (longest : LongestToken entries (text ++ rest) text token) (next : Greedy rest more) :
      Greedy (text ++ rest) (token :: more)
  | unknown {c : UInt8} {rest : Bytes} {more : List Int}
      (noToken : ∀ entry ∈ entries, entry.1 <+: c :: rest → entry.1 = []) (next : Greedy rest more) :
      Greedy (c :: rest) (tokenUnk :: more)

inductive GreedyRest (text : Bytes) : Bytes → Prop
  | start : GreedyRest text text
  | token {first rest : Bytes} {token : Int} (before : GreedyRest text (first ++ rest))
      (longest : LongestToken entries (first ++ rest) first token) : GreedyRest text rest
  | unknown {c : UInt8} {rest : Bytes} (before : GreedyRest text (c :: rest))
      (noToken : ∀ entry ∈ entries, entry.1 <+: c :: rest → entry.1 = []) : GreedyRest text rest

/-- The walk from a rest of the text ends: if a token begins as the rest does, then one lies
at its start, and no token goes on behind the rest with the terminator. -/
structure WalkEnds (rest : Bytes) : Prop where
  complete : ∀ c tail, rest = c :: tail → (∃ entry ∈ entries, [c] <+: entry.1) →
    ∃ entry ∈ entries, entry.1 ≠ [] ∧ entry.1 <+: rest
  inside : ∀ entry ∈ entries, ¬ rest ++ [0] <+: entry.1

def deepest : NaiveTrie Int → Bytes → Option (Int × Nat)
  | node, [] => node.value.map (·, 0)
  | node, c :: rest =>
    match (node.traverse c).bind fun child => deepest child rest with
    | some (value, depth) => some (value, depth + 1)
    | none => node.value.map (·, 0)

end

section

variable {entries : List (Bytes × Int)} {tokenUnk : Int} {text rest : Bytes}

variable {position : Nat} {c : UInt8} {fuel : Nat} {node : NaiveTrie Int} {first : Bytes}

theorem readAt_drop {more : Bytes} (here : text.drop position = c :: more) :
    readAt text position = .ok c := by
  have inside : position < text.length := by
    by_contra beyond
    rw [drop_eq_nil_of_le (Nat.le_of_not_lt beyond)] at here
    cases here
  rw [readAt, if_pos inside]
  have head : text[position]? = some c := by
    rw [← List.head?_drop, here]
    rfl
  rw [getD_eq_getElem?_getD, head]
  rfl

theorem readAt_length : readAt text text.length = .ok 0 := by
  rw [readAt, if_neg (Nat.lt_irrefl _), if_pos rfl]

theorem toNat_position (fits : position < 2 ^ 32) : (UInt32.ofNat position).toNat = position := by
  rw [UInt32.toNat_ofNat', Nat.mod_eq_of_lt fits]

theorem next_position (position : Nat) :
    UInt32.ofNat position + 1 = UInt32.ofNat (position + 1) := by
  rw [UInt32.ofNat_add]
  rfl

theorem valueAt_cons (node : NaiveTrie Int) (c : UInt8) (path : Bytes) :
    node.valueAt (c :: path) = (node.traverse c).bind fun child => child.valueAt path := by
  rw [NaiveTrie.valueAt, NaiveTrie.descend_cons, bind_assoc]
  rfl

theorem valueAt_nil (node : NaiveTrie Int) : node.valueAt [] = node.value := by
  rw [NaiveTrie.valueAt, NaiveTrie.descend_nil, bind_some]

theorem deepest_spec (node : NaiveTrie Int) (rest : Bytes) :
    match deepest node rest with
    | some (value, depth) => depth ≤ rest.length ∧ node.valueAt (rest.take depth) = some value ∧
        ∀ n ≤ rest.length, (node.valueAt (rest.take n)).isSome → n ≤ depth
    | none => ∀ n ≤ rest.length, node.valueAt (rest.take n) = none := by
  induction rest generalizing node with
  | nil =>
    rw [deepest]
    cases own : node.value with
    | none =>
      intro n _
      rw [take_nil, valueAt_nil, own]
    | some value =>
      refine ⟨le_refl 0, ?_, fun n inside _ => inside⟩
      rw [take_nil, valueAt_nil, own]
  | cons c rest ih =>
    rw [deepest]
    cases step : node.traverse c with
    | none =>
      have below : ∀ n, node.valueAt ((c :: rest).take (n + 1)) = none := by
        intro n
        rw [take_succ_cons, valueAt_cons, step, bind_none]
      cases own : node.value with
      | none =>
        intro n _
        cases n with
        | zero => rw [take_zero, valueAt_nil, own]
        | succ n => exact below n
      | some value =>
        refine ⟨Nat.zero_le _, ?_, fun n _ has => ?_⟩
        · rw [take_zero, valueAt_nil, own]
        · cases n with
          | zero => exact Nat.le_refl 0
          | succ n =>
            rw [below n] at has
            cases has
    | some child =>
      have inner := ih child
      have below : ∀ n, node.valueAt ((c :: rest).take (n + 1)) = child.valueAt (rest.take n) := by
        intro n
        rw [take_succ_cons, valueAt_cons, step, bind_some]
      rw [bind_some]
      cases deeper : deepest child rest with
      | some found =>
        rw [deeper] at inner
        refine ⟨Nat.succ_le_succ inner.1, (below _).trans inner.2.1, fun n inside has => ?_⟩
        cases n with
        | zero => exact Nat.zero_le _
        | succ n =>
          rw [below n] at has
          exact Nat.succ_le_succ (inner.2.2 n (Nat.le_of_succ_le_succ inside) has)
      | none =>
        rw [deeper] at inner
        cases own : node.value with
        | none =>
          intro n inside
          cases n with
          | zero => rw [take_zero, valueAt_nil, own]
          | succ n => exact (below n).trans (inner n (Nat.le_of_succ_le_succ inside))
        | some value =>
          refine ⟨Nat.zero_le _, ?_, fun n inside has => ?_⟩
          · rw [take_zero, valueAt_nil, own]
          · cases n with
            | zero => exact Nat.le_refl 0
            | succ n =>
              rw [below n, inner n (Nat.le_of_succ_le_succ inside)] at has
              cases has

def walkResult (node : NaiveTrie Int) (rest : Bytes) (position : Nat) (tokenId : Int)
    (tokenLength : UInt32) : Int × UInt32 :=
  match deepest node rest with
  | some (value, depth) => (value, UInt32.ofNat (position + depth + 1))
  | none => (tokenId, tokenLength)

theorem walkToken_inside (fits : text.length < 2 ^ 31) (inText : position < text.length)
    (here : text.drop (position + 1) = rest) (inside : node.descend (rest ++ [0]) = none)
    (enough : rest.length < fuel) (tokenId : Int) (tokenLength : UInt32) :
    walkToken text fuel node (UInt32.ofNat position) tokenId tokenLength =
      .ok (walkResult node rest position tokenId tokenLength) := by
  induction rest generalizing fuel position node tokenId tokenLength with
  | nil =>
    obtain ⟨fuel, rfl⟩ := Nat.exists_eq_add_of_lt enough
    have atEnd : position + 1 = text.length := by
      rw [drop_eq_nil_iff] at here
      omega
    have noChild : node.traverse 0 = none := by
      cases step : node.traverse 0 with
      | none => rfl
      | some child => simp [step] at inside
    rw [length_nil, walkToken, next_position,
      toNat_position (by omega), atEnd, readAt_length, walkResult, deepest]
    cases own : node.value with
    | none => simp [bind, Except.bind, noChild]
    | some value => simp [bind, Except.bind, noChild, atEnd]
  | cons c rest ih =>
    obtain ⟨fuel, rfl⟩ := Nat.exists_eq_add_of_lt enough
    have nextInText : position + 1 < text.length := by
      by_contra beyond
      rw [drop_eq_nil_of_le (Nat.le_of_not_lt beyond)] at here
      cases here
    have nextHere : text.drop (position + 1 + 1) = rest := by
      rw [← drop_drop, here]
      rfl
    rw [walkToken, next_position, toNat_position (by omega), readAt_drop here, walkResult, deepest]
    cases step : node.traverse c with
    | none => cases own : node.value <;> simp [bind, Except.bind, step]
    | some child =>
      have childInside : child.descend (rest ++ [0]) = none := by
        simpa [step] using inside
      have deeper : ∀ id length, walkToken text ((c :: rest).length + fuel) child
          (UInt32.ofNat (position + 1)) id length =
            .ok (walkResult child rest (position + 1) id length) := by
        intro id length
        apply ih nextInText nextHere childInside
        rw [length_cons]
        omega
      simp only [bind, Except.bind, step, deeper, walkResult, bind_some]
      cases found : deepest child rest with
      | none => cases own : node.value <;> rfl
      | some best =>
        have same : position + 1 + best.2 + 1 = position + (best.2 + 1) + 1 := by omega
        simp [same]

theorem readAt_beyond {i : Nat} (beyond : text.length < i) : readAt text i = .error .overread := by
  rw [readAt, if_neg (by omega), if_neg (by omega)]

theorem walkToken_outside (fits : text.length < 2 ^ 31) (inText : position < text.length)
    (here : text.drop (position + 1) = rest) (outside : (node.descend (rest ++ [0])).isSome)
    (tokenId : Int) (tokenLength : UInt32) (found : Int × UInt32) :
    walkToken text fuel node (UInt32.ofNat position) tokenId tokenLength ≠ .ok found := by
  induction rest generalizing fuel position node tokenId tokenLength with
  | nil =>
    cases fuel with
    | zero => exact fun done => by cases done
    | succ fuel =>
      have atEnd : position + 1 = text.length := by
        rw [drop_eq_nil_iff] at here
        omega
      cases step : node.traverse 0 with
      | none => simp [step] at outside
      | some child =>
        rw [walkToken, next_position, toNat_position (by omega), atEnd, readAt_length]
        simp only [bind, Except.bind, step]
        cases fuel with
        | zero => exact fun done => by cases done
        | succ fuel =>
          rw [walkToken, next_position, toNat_position (by omega),
            readAt_beyond (Nat.lt_succ_self _)]
          exact fun done => by cases done
  | cons c rest ih =>
    cases fuel with
    | zero => exact fun done => by cases done
    | succ fuel =>
      have nextInText : position + 1 < text.length := by
        by_contra beyond
        rw [drop_eq_nil_of_le (Nat.le_of_not_lt beyond)] at here
        cases here
      have nextHere : text.drop (position + 1 + 1) = rest := by
        rw [← drop_drop, here]
        rfl
      cases step : node.traverse c with
      | none => simp [step] at outside
      | some child =>
        rw [walkToken, next_position, toNat_position (by omega), readAt_drop here]
        simp only [bind, Except.bind, step]
        exact ih nextInText nextHere (by simpa [step] using outside) _ _

variable {output : List Int}

def loopAt (entries : List (Bytes × Int)) (tokenUnk : Int) (text : Bytes) (fuel : Nat)
    (rest : Bytes) (output : List Int) : Except RwkvError (List Int) :=
  rwkvLoop (NaiveTrie.ofEntries entries) tokenUnk text fuel
    (UInt32.ofNat (text.length - rest.length)) output

theorem drop_of_suffix (suffix : rest <:+ text) : text.drop (text.length - rest.length) = rest := by
  obtain ⟨front, rfl⟩ := suffix
  rw [length_append, Nat.add_sub_cancel, drop_left]

theorem drop_behind (suffix : c :: rest <:+ text) :
    text.drop (text.length - (rest.length + 1) + 1) = rest := by
  have whole : text.drop (text.length - (rest.length + 1)) = c :: rest := drop_of_suffix suffix
  rw [← drop_drop, whole]
  rfl

theorem loopAt_nil (fits : text.length < 2 ^ 31) (fuel : Nat) :
    loopAt entries tokenUnk text (fuel + 1) [] output = .ok output := by
  rw [loopAt, rwkvLoop, toNat_position (by omega), if_neg (by simp)]

theorem loopAt_unknown (fits : text.length < 2 ^ 31) (suffix : c :: rest <:+ text)
    (noPath : (NaiveTrie.ofEntries entries).traverse c = none) (fuel : Nat) :
    loopAt entries tokenUnk text (fuel + 1) (c :: rest) output =
      loopAt entries tokenUnk text fuel rest (output ++ [tokenUnk]) := by
  have short := suffix.length_le
  rw [length_cons] at short
  have next : text.length - (rest.length + 1) + 1 = text.length - rest.length := by omega
  have read : readAt text (text.length - (rest.length + 1)) = .ok c :=
    readAt_drop (drop_of_suffix suffix)
  rw [loopAt, rwkvLoop, toNat_position (by omega), length_cons, if_pos (by omega), read]
  simp only [bind, Except.bind, noPath, next_position, next]
  rfl

theorem loopAt_path (fits : text.length < 2 ^ 31) (suffix : c :: rest <:+ text)
    (path : (NaiveTrie.ofEntries entries).traverse c = some node) (fuel : Nat) :
    loopAt entries tokenUnk text (fuel + 1) (c :: rest) output =
      (walkToken text fuel node (UInt32.ofNat (text.length - (rest.length + 1))) 0 0).bind
        fun found => rwkvLoop (NaiveTrie.ofEntries entries) tokenUnk text fuel found.2
          (output ++ [found.1]) := by
  have short := suffix.length_le
  rw [length_cons] at short
  have read : readAt text (text.length - (rest.length + 1)) = .ok c :=
    readAt_drop (drop_of_suffix suffix)
  rw [loopAt, rwkvLoop, toNat_position (by omega), length_cons, if_pos (by omega), read]
  simp [bind, Except.bind, path]

theorem traverse_isSome (entries : List (Bytes × Int)) (c : UInt8) :
    ((NaiveTrie.ofEntries entries).traverse c).isSome ↔ ∃ entry ∈ entries, [c] <+: entry.1 := by
  have single := NaiveTrie.descend_ofEntries entries [c]
  simpa using single

theorem descend_path (path : (NaiveTrie.ofEntries entries).traverse c = some node) (more : Bytes) :
    node.descend more = (NaiveTrie.ofEntries entries).descend (c :: more) := by
  rw [NaiveTrie.descend_cons, path, bind_some]

theorem valueAt_path (path : (NaiveTrie.ofEntries entries).traverse c = some node) (n : Nat) :
    node.valueAt (rest.take n) = NaiveTrie.lastValue entries ((c :: rest).take (n + 1)) := by
  rw [← NaiveTrie.valueAt_ofEntries, take_succ_cons, NaiveTrie.valueAt, NaiveTrie.valueAt,
    descend_path path]

theorem begins_take (begins : first <+: c :: rest) (nonempty : first ≠ []) :
    ∃ n ≤ rest.length, first = (c :: rest).take (n + 1) := by
  cases first with
  | nil => exact absurd rfl nonempty
  | cons d first =>
    have short := begins.length_le
    exact ⟨first.length, Nat.le_of_succ_le_succ short, prefix_iff_eq_take.mp begins⟩

theorem deepest_longest {c : UInt8} {node : NaiveTrie Int}
    (path : (NaiveTrie.ofEntries entries).traverse c = some node) :
    match deepest node rest with
    | some (value, depth) => depth ≤ rest.length ∧
        LongestToken entries (c :: rest) ((c :: rest).take (depth + 1)) value
    | none => ∀ entry ∈ entries, entry.1 <+: c :: rest → entry.1 = [] := by
  have spec := deepest_spec node rest
  cases found : deepest node rest with
  | some best =>
    rw [found] at spec
    obtain ⟨inside, value, longest⟩ := spec
    refine ⟨inside, ⟨by simp, ?_, take_prefix _ _, fun entry member begins => ?_⟩⟩
    · rw [← valueAt_path path, value]
    · by_cases empty : entry.1 = []
      · rw [empty]
        exact Nat.zero_le _
      · obtain ⟨n, bound, same⟩ := begins_take begins empty
        have has : (node.valueAt (rest.take n)).isSome := by
          rw [valueAt_path path, ← same]
          exact (NaiveTrie.lastValue_isSome entries entry.1).mpr ⟨entry, member, rfl⟩
        have shorter := longest n bound has
        rw [same, length_take, length_take]
        omega
  | none =>
    rw [found] at spec
    intro entry member begins
    by_contra empty
    obtain ⟨n, bound, same⟩ := begins_take begins empty
    have has := (NaiveTrie.lastValue_isSome entries entry.1).mpr ⟨entry, member, rfl⟩
    rw [same, ← valueAt_path path, spec n bound] at has
    cases has

theorem LongestToken.unique {other : Bytes} {token value : Int}
    (longest : LongestToken entries rest first token)
    (same : LongestToken entries rest other value) : first = other ∧ token = value := by
  have entryOf : ∀ text id, NaiveTrie.lastValue entries text = some id →
      ∃ entry ∈ entries, entry.1 = text := by
    intro text id has
    rw [← NaiveTrie.lastValue_isSome, has]
    rfl
  obtain ⟨entry, member, here⟩ := entryOf first token longest.isToken
  obtain ⟨other_, otherMember, otherHere⟩ := entryOf other value same.isToken
  have below := same.longest entry member (here ▸ longest.begins)
  have above := longest.longest other_ otherMember (otherHere ▸ same.begins)
  rw [here] at below
  rw [otherHere] at above
  have texts : first = other :=
    (prefix_of_prefix_length_le longest.begins same.begins below).eq_of_length_le above
  refine ⟨texts, ?_⟩
  have one := longest.isToken
  rw [texts, same.isToken] at one
  exact (some.inj one).symm

theorem outside_iff (path : (NaiveTrie.ofEntries entries).traverse c = some node) :
    (node.descend (rest ++ [0])).isSome ↔ ∃ entry ∈ entries, (c :: rest) ++ [0] <+: entry.1 := by
  rw [descend_path path, NaiveTrie.descend_ofEntries]
  simp

theorem walkToken_mono {position : UInt32} {tokenId : Int} {tokenLength : UInt32}
    {found : Int × UInt32}
    (done : walkToken text fuel node position tokenId tokenLength = .ok found) (more : Nat) :
    walkToken text (fuel + more) node position tokenId tokenLength = .ok found := by
  induction fuel generalizing node position tokenId tokenLength with
  | zero => cases done
  | succ fuel ih =>
    rw [Nat.succ_add]
    rw [walkToken] at done ⊢
    cases read : readAt text (position + 1).toNat with
    | error failure =>
      rw [read] at done
      cases done
    | ok c =>
      rw [read] at done
      simp only [bind, Except.bind] at done ⊢
      cases step : node.traverse c with
      | none =>
        rw [step] at done
        exact done
      | some child =>
        rw [step] at done
        exact ih done

theorem walkToken_rest (fits : text.length < 2 ^ 31) (suffix : c :: rest <:+ text)
    (path : (NaiveTrie.ofEntries entries).traverse c = some node)
    (inside : ∀ entry ∈ entries, ¬ (c :: rest) ++ [0] <+: entry.1) (enough : rest.length < fuel) :
    walkToken text fuel node (UInt32.ofNat (text.length - (rest.length + 1))) 0 0 =
      .ok (walkResult node rest (text.length - (rest.length + 1)) 0 0) := by
  have short := suffix.length_le
  rw [length_cons] at short
  have ends : node.descend (rest ++ [0]) = none := by
    rw [← not_isSome_iff_eq_none, outside_iff path]
    rintro ⟨entry, member, beyond⟩
    exact inside entry member beyond
  exact walkToken_inside fits (by omega) (drop_behind suffix) ends enough 0 0

theorem walkResult_token {tail : Bytes} {token : Int}
    (path : (NaiveTrie.ofEntries entries).traverse c = some node) (suffix : c :: tail <:+ text)
    (whole : c :: tail = first ++ rest) (longest : LongestToken entries (c :: tail) first token) :
    walkResult node tail (text.length - (tail.length + 1)) 0 0 =
      (token, UInt32.ofNat (text.length - rest.length)) := by
  have deepest_ := @deepest_longest entries tail c node path
  rw [walkResult]
  cases found : deepest node tail with
  | none =>
    rw [found] at deepest_
    obtain ⟨entry, member, here⟩ : ∃ entry ∈ entries, entry.1 = first := by
      rw [← NaiveTrie.lastValue_isSome, longest.isToken]
      rfl
    exact absurd (here ▸ deepest_ entry member (here ▸ longest.begins)) longest.nonempty
  | some best =>
    rw [found] at deepest_
    obtain ⟨bound, deep⟩ := deepest_
    obtain ⟨texts, tokens⟩ := deep.unique longest
    have short := suffix.length_le
    have lengths : tail.length + 1 = first.length + rest.length := by
      rw [← length_append, ← whole, length_cons]
    have depth : first.length = best.2 + 1 := by
      rw [← texts, length_take, length_cons]
      omega
    have position : text.length - (tail.length + 1) + best.2 + 1 = text.length - rest.length := by
      rw [length_cons] at short
      omega
    simp [tokens, position]

theorem walkResult_restart {c : UInt8} {node : NaiveTrie Int}
    (path : (NaiveTrie.ofEntries entries).traverse c = some node)
    (noToken : ∀ entry ∈ entries, entry.1 <+: c :: rest → entry.1 = []) (position : Nat) :
    walkResult node rest position 0 0 = (0, UInt32.ofNat (text.length - text.length)) := by
  have deepest_ := @deepest_longest entries rest c node path
  rw [walkResult]
  cases found : deepest node rest with
  | none => rw [Nat.sub_self]; rfl
  | some best =>
    rw [found] at deepest_
    obtain ⟨entry, member, here⟩ :
        ∃ entry ∈ entries, entry.1 = (c :: rest).take (best.2 + 1) := by
      rw [← NaiveTrie.lastValue_isSome, deepest_.2.isToken]
      rfl
    exact absurd (here ▸ noToken entry member (here ▸ deepest_.2.begins)) deepest_.2.nonempty

theorem loopAt_path_ok (fits : text.length < 2 ^ 31) (suffix : c :: rest <:+ text)
    (path : (NaiveTrie.ofEntries entries).traverse c = some node) {result : List Int}
    (done : loopAt entries tokenUnk text (fuel + 1) (c :: rest) output = .ok result) :
    (∀ entry ∈ entries, ¬ (c :: rest) ++ [0] <+: entry.1) ∧
      let found := walkResult node rest (text.length - (rest.length + 1)) 0 0
      rwkvLoop (NaiveTrie.ofEntries entries) tokenUnk text fuel found.2 (output ++ [found.1]) =
        .ok result := by
  rw [loopAt_path fits suffix path] at done
  cases walk : walkToken text fuel node (UInt32.ofNat (text.length - (rest.length + 1))) 0 0 with
  | error failure =>
    rw [walk] at done
    cases done
  | ok found =>
    rw [walk] at done
    have short := suffix.length_le
    rw [length_cons] at short
    have inside : ∀ entry ∈ entries, ¬ (c :: rest) ++ [0] <+: entry.1 := by
      intro entry member beyond
      exact walkToken_outside fits (by omega) (drop_behind suffix)
        ((outside_iff path).mpr ⟨entry, member, beyond⟩) 0 0 found walk
    refine ⟨inside, ?_⟩
    have longer := walkToken_rest fits suffix path inside
      (show rest.length < fuel + (rest.length + 1) by omega)
    rw [walkToken_mono walk (rest.length + 1), Except.ok.injEq] at longer
    rw [← longer]
    exact done

theorem traverse_of_begins (nonempty : first ≠ []) (begins : first <+: c :: rest)
    (isEntry : ∃ entry ∈ entries, first <+: entry.1) :
    ∃ node, (NaiveTrie.ofEntries entries).traverse c = some node := by
  rw [← isSome_iff_exists, traverse_isSome]
  obtain ⟨entry, member, here⟩ := isEntry
  cases first with
  | nil => exact absurd rfl nonempty
  | cons d first =>
    rw [cons_prefix_cons] at begins
    rw [begins.1] at here
    exact ⟨entry, member, (prefix_append [c] first).trans here⟩

theorem noToken_of_noPath {c : UInt8} (noPath : (NaiveTrie.ofEntries entries).traverse c = none) :
    ∀ entry ∈ entries, entry.1 <+: c :: rest → entry.1 = [] := by
  intro entry member begins
  by_contra nonempty
  obtain ⟨node, path⟩ := traverse_of_begins nonempty begins ⟨entry, member, prefix_rfl⟩
  rw [noPath] at path
  cases path

theorem loopAt_greedy (fits : text.length < 2 ^ 31)
    (ends : ∀ rest, GreedyRest entries text rest → rest ≠ [] → WalkEnds entries rest)
    (n : Nat) (bound : rest.length ≤ n) (suffix : rest <:+ text)
    (reached : GreedyRest entries text rest) {fuel : Nat} (enough : rest.length < fuel)
    (output : List Int) :
    ∃ more, Greedy entries tokenUnk rest more ∧
      loopAt entries tokenUnk text fuel rest output = .ok (output ++ more) := by
  induction n generalizing rest fuel output with
  | zero =>
    obtain rfl := eq_nil_of_length_eq_zero (Nat.le_zero.mp bound)
    obtain ⟨fuel, rfl⟩ := Nat.exists_eq_add_of_lt enough
    refine ⟨[], .done, ?_⟩
    rw [append_nil, length_nil, zero_add]
    exact loopAt_nil fits fuel
  | succ n ih =>
    cases rest with
    | nil =>
      obtain ⟨fuel, rfl⟩ := Nat.exists_eq_add_of_lt enough
      refine ⟨[], .done, ?_⟩
      rw [append_nil, length_nil, zero_add]
      exact loopAt_nil fits fuel
    | cons c tail =>
      rw [length_cons] at enough
      obtain ⟨fuel, rfl⟩ : ∃ less, fuel = less + 1 := ⟨fuel - 1, by omega⟩
      have walkEnds := ends (c :: tail) reached (cons_ne_nil c tail)
      cases path : (NaiveTrie.ofEntries entries).traverse c with
      | none =>
        have noToken := @noToken_of_noPath entries tail c path
        obtain ⟨more, greedy, done⟩ := ih (Nat.le_of_succ_le_succ bound)
          ((suffix_cons c tail).trans suffix) (.unknown reached noToken)
          (show tail.length < fuel by omega) (output ++ [tokenUnk])
        refine ⟨tokenUnk :: more, .unknown noToken greedy, ?_⟩
        rw [loopAt_unknown fits suffix path, done, append_assoc, singleton_append]
      | some node =>
        obtain ⟨entry, member, nonempty, begins⟩ := walkEnds.complete c tail rfl
          ((traverse_isSome entries c).mp (by rw [path]; rfl))
        have deep := @deepest_longest entries tail c node path
        cases found : deepest node tail with
        | none =>
          rw [found] at deep
          exact absurd (deep entry member begins) nonempty
        | some best =>
          rw [found] at deep
          obtain ⟨-, longest⟩ := deep
          generalize (c :: tail).take (best.2 + 1) = first at longest
          obtain ⟨behind, whole⟩ := longest.begins
          have shorter : behind.length ≤ tail.length := by
            have lengths := congrArg List.length whole
            have some_ := length_pos_iff.mpr longest.nonempty
            rw [length_append, length_cons] at lengths
            omega
          have nextSuffix : behind <:+ text :=
            (whole ▸ suffix_append first behind).trans suffix
          obtain ⟨more, greedy, done⟩ := ih (shorter.trans (Nat.le_of_succ_le_succ bound))
            nextSuffix (.token (whole.symm ▸ reached) (whole.symm ▸ longest))
            (show behind.length < fuel by omega) (output ++ [best.1])
          refine ⟨best.1 :: more, whole ▸ .token (whole.symm ▸ longest) greedy, ?_⟩
          rw [loopAt_path fits suffix path, walkToken_rest fits suffix path walkEnds.inside
            (by omega), walkResult_token path suffix whole.symm longest]
          rw [append_assoc] at done
          exact done

theorem loopAt_reaches (fits : text.length < 2 ^ 31) {result : List Int} (fuel : Nat)
    (output : List Int) (done : loopAt entries tokenUnk text fuel text output = .ok result)
    (reached : GreedyRest entries text rest) :
    rest <:+ text ∧ (rest ≠ [] → WalkEnds entries rest) ∧
      ∃ less ≤ fuel, ∃ before, loopAt entries tokenUnk text less rest before = .ok result := by
  induction fuel using Nat.strong_induction_on generalizing output rest with
  | _ fuel earlier =>
    -- a walk from a rest that finds no token starts the session again with less fuel
    have restart : ∀ {c tail node less before}, less ≤ fuel → c :: tail <:+ text →
        GreedyRest entries text (c :: tail) →
        (NaiveTrie.ofEntries entries).traverse c = some node →
        loopAt entries tokenUnk text less (c :: tail) before = .ok result →
        (∀ entry ∈ entries, ¬ (c :: tail) ++ [0] <+: entry.1) ∧
          ∃ entry ∈ entries, entry.1 ≠ [] ∧ entry.1 <+: c :: tail := by
      intro c tail node less before bound suffix reached path done
      cases less with
      | zero => cases done
      | succ less =>
        obtain ⟨inside, next⟩ := loopAt_path_ok fits suffix path done
        refine ⟨inside, ?_⟩
        by_contra none
        have noToken : ∀ entry ∈ entries, entry.1 <+: c :: tail → entry.1 = [] := by
          intro entry member begins
          by_contra nonempty
          exact none ⟨entry, member, nonempty, begins⟩
        rw [@walkResult_restart entries text tail c node path noToken] at next
        obtain ⟨-, ends, -⟩ := earlier less bound _ next reached
        exact none ((ends (cons_ne_nil c tail)).complete c tail rfl
          ((traverse_isSome entries c).mp (by rw [path]; rfl)))
    have ends : ∀ {rest less before}, less ≤ fuel → rest <:+ text →
        GreedyRest entries text rest →
        loopAt entries tokenUnk text less rest before = .ok result →
        rest ≠ [] → WalkEnds entries rest := by
      intro rest less before bound suffix reached done nonempty
      cases rest with
      | nil => exact absurd rfl nonempty
      | cons c tail =>
        cases path : (NaiveTrie.ofEntries entries).traverse c with
        | none =>
          have noPath : ¬ ∃ entry ∈ entries, [c] <+: entry.1 := by
            rw [← traverse_isSome, path]
            exact Bool.false_ne_true
          refine ⟨fun d other whole isEntry => ?_, fun entry member beyond => ?_⟩
          · rw [List.cons.injEq] at whole
            exact absurd (whole.1 ▸ isEntry) noPath
          · exact noPath ⟨entry, member, (prefix_append [c] (tail ++ [0])).trans beyond⟩
        | some node =>
          obtain ⟨inside, token⟩ := restart bound suffix reached path done
          exact ⟨fun _ _ _ _ => token, inside⟩
    have comes : rest <:+ text ∧
        ∃ less ≤ fuel, ∃ before, loopAt entries tokenUnk text less rest before = .ok result := by
      induction reached with
      | start => exact ⟨suffix_rfl, fuel, le_refl fuel, output, done⟩
      | @token first rest token before longest ih =>
        obtain ⟨suffix, less, bound, prior, here⟩ := ih
        cases first with
        | nil => exact absurd rfl longest.nonempty
        | cons c first =>
          obtain ⟨entry, member, same⟩ : ∃ entry ∈ entries, entry.1 = c :: first := by
            rw [← NaiveTrie.lastValue_isSome, longest.isToken]
            rfl
          obtain ⟨node, path⟩ := traverse_of_begins longest.nonempty longest.begins
            ⟨entry, member, same ▸ prefix_rfl⟩
          cases less with
          | zero => cases here
          | succ less =>
            obtain ⟨-, next⟩ := loopAt_path_ok fits suffix path here
            rw [walkResult_token path suffix rfl longest] at next
            exact ⟨(suffix_append _ rest).trans suffix, less,
              (Nat.le_succ less).trans bound, _, next⟩
      | @unknown c rest before noToken ih =>
        obtain ⟨suffix, less, bound, prior, here⟩ := ih
        cases path : (NaiveTrie.ofEntries entries).traverse c with
        | some node =>
          obtain ⟨-, entry, member, nonempty, begins⟩ := restart bound suffix before path here
          exact absurd (noToken entry member begins) nonempty
        | none =>
          cases less with
          | zero => cases here
          | succ less =>
            rw [loopAt_unknown fits suffix path] at here
            exact ⟨(suffix_cons c rest).trans suffix, less,
              (Nat.le_succ less).trans bound, _, here⟩
    obtain ⟨suffix, less, bound, before, here⟩ := comes
    exact ⟨suffix, ends bound suffix reached here, less, bound, before, here⟩

/-- The session returns the greedy segmentation exactly when every walk from a position of
that segmentation ends at a token and before the terminator. -/
theorem rwkvTokenize_greedy_iff (texts : List Bytes) (tokenUnk : Int) (text : Bytes)
    (fits : text.length < 2 ^ 31) :
    (∃ fuel output, rwkvTokenize texts tokenUnk text fuel = .ok output ∧
      Greedy (rwkvEntries texts) tokenUnk text output) ↔
    ∀ rest, GreedyRest (rwkvEntries texts) text rest → rest ≠ [] →
      WalkEnds (rwkvEntries texts) rest := by
  have start : ∀ fuel, rwkvTokenize texts tokenUnk text fuel =
      loopAt (rwkvEntries texts) tokenUnk text fuel text [] := by
    intro fuel
    rw [loopAt, Nat.sub_self]
    rfl
  constructor
  · rintro ⟨fuel, output, done, -⟩ rest reached
    rw [start] at done
    exact (loopAt_reaches fits fuel [] done reached).2.1
  · intro ends
    obtain ⟨output, greedy, done⟩ := @loopAt_greedy (rwkvEntries texts) tokenUnk text text fits ends
      text.length (Nat.le_refl _) suffix_rfl .start (text.length + 1) (Nat.lt_succ_self _) []
    exact ⟨text.length + 1, output, (start _).trans done, greedy⟩

end

/-- The only token is `ab` and the text is `a`: the session starts again for ever. -/
theorem rwkvTokenize_restarts :
    ¬ ∃ fuel output, rwkvTokenize [[97, 98]] 0 [97] fuel = .ok output ∧
      Greedy (rwkvEntries [[97, 98]]) 0 [97] output := by
  rintro ⟨fuel, output, done, -⟩
  have reaches := @loopAt_reaches (rwkvEntries [[97, 98]]) 0 [97] [97] (by decide) output fuel []
    done .start
  obtain ⟨entry, member, -, begins⟩ := (reaches.2.1 (cons_ne_nil _ _)).complete 97 [] rfl
    ⟨_, mem_singleton_self _, by decide⟩
  rw [mem_singleton.mp member] at begins
  exact absurd begins (by decide)

theorem rwkvTokenize_greedy_iff_at_ab :
    (∃ fuel output, rwkvTokenize [[97], [97, 98]] 0 [97, 98] fuel = .ok output ∧
      Greedy (rwkvEntries [[97], [97, 98]]) 0 [97, 98] output) ↔
    ∀ rest, GreedyRest (rwkvEntries [[97], [97, 98]]) [97, 98] rest → rest ≠ [] →
      WalkEnds (rwkvEntries [[97], [97, 98]]) rest :=
  rwkvTokenize_greedy_iff [[97], [97, 98]] 0 [97, 98] (by decide)

end LlamaCpp.Vocab
