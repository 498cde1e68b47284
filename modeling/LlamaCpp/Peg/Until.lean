import LlamaCpp.Peg.Chars

/-!
# Reading until a delimiter

In strict mode the until parser stops at the first position where a delimiter stands, or
where the input ends within one.
-/

set_option autoImplicit false

namespace LlamaCpp.Peg

open LlamaCpp.Lib List

/-- The first position from `start` on that has the property, or the end. -/
structure FirstAt (P : Nat → Prop) (start limit end_ : Nat) : Prop where
  after : start ≤ end_
  inside : end_ ≤ limit
  stands : end_ = limit ∨ P end_
  first : ∀ p, start ≤ p → p < end_ → ¬ P p

def DelimiterAt (delimiters : List String) (input : List Byte) (p : Nat) : Prop :=
  ∃ d ∈ delimiters, bytesOf d <+: input.drop p

def CutAt (delimiters : List String) (input : List Byte) (p : Nat) : Prop :=
  p < input.length ∧ ∃ d ∈ delimiters, input.drop p <+: bytesOf d ∧ input.drop p ≠ bytesOf d

def StopsAt (delimiters : List String) (input : List Byte) (p : Nat) : Prop :=
  p < input.length ∧ ∃ d ∈ delimiters, d ≠ "" ∧
    (bytesOf d <+: input.drop p ∨ input.drop p <+: bytesOf d)

/-- No delimiter is cut by the end of the input before one stands there completely; and where
the empty text is a delimiter, another one stops the parser at once. -/
structure Complete (delimiters : List String) (input : List Byte) (start : Nat) : Prop where
  uncut : ∀ p, start ≤ p → CutAt delimiters input p →
    ∃ q, start ≤ q ∧ q ≤ p ∧ DelimiterAt delimiters input q
  nonempty : "" ∈ delimiters → start = input.length ∨ StopsAt delimiters input start

variable {delimiters : List String} {input : List Byte} {start end_ : Nat}
variable {text word : List Char} {front : List Byte}

theorem Children.Ordered.find? {low : Option Nat} {children : Children}
    (ordered : children.Ordered low) (ch : Nat) :
    match children.find? ch with
    | none => ∀ rest, ¬ children.HasPath (ch :: rest)
    | some (mark, below) => below.Ordered none ∧ ∀ rest,
        (children.HasWord (ch :: rest) ↔ rest = [] ∧ mark = true ∨ below.HasWord rest) ∧
          (children.HasPath (ch :: rest) ↔ rest = [] ∨ below.HasPath rest) := by
  induction children generalizing low with
  | nil => exact fun _ => id
  | node c isWord children others _ ihOthers =>
    obtain ⟨-, down, others_⟩ := ordered
    by_cases same : ch = c
    · subst same
      have off := others_.not_others
      have offWord : ∀ rest, ¬ others.HasWord (ch :: rest) :=
        fun rest word => off rest word.hasPath
      simp [Children.find?, HasWord, HasPath, down, off, offWord]
    · have next := ihOthers others_
      simpa [Children.find?, same, HasWord, HasPath] using next

/-- Some word begins the text `ch :: rest`, and how it goes on below. -/
theorem exists_word_cons {children : Children} (ch : Nat) (rest : List Nat) :
    (∃ word, children.HasWord word ∧ word <+: ch :: rest) ↔
      ∃ word, children.HasWord (ch :: word) ∧ word <+: rest := by
  constructor
  · rintro ⟨word, holds, isPrefix⟩
    cases word with
    | nil => exact absurd holds.hasPath children.not_hasPath_nil
    | cons a word =>
      obtain ⟨rfl, tail⟩ := cons_prefix_cons.mp isPrefix
      exact ⟨word, holds, tail⟩
  · rintro ⟨word, holds, isPrefix⟩
    exact ⟨ch :: word, holds, cons_prefix_cons.mpr ⟨rfl, isPrefix⟩⟩

theorem checkFrom_stops {low : Option Nat} {children : Children} (ordered : children.Ordered low)
    (moved : Bool) (front : List Byte) (text : List Char) :
    checkFrom (front ++ encode text) children moved front.length ≠ .noMatch ↔
      (∃ word, children.HasWord word ∧ word <+: text.map Char.toNat) ∨
        children.HasPath (text.map Char.toNat) ∨ (text = [] ∧ moved = true) := by
  induction text generalizing low children moved front with
  | nil =>
    have noWord : ¬ children.HasWord [] := fun word => children.not_hasPath_nil word.hasPath
    rw [checkFrom_eq]
    simp [noWord, Children.not_hasPath_nil]
  | cons c text ih =>
    have more : front.length < (front ++ encode (c :: text)).length := by simp [c.utf8Size_pos]
    have spec := ordered.find? c.toNat
    rw [checkFrom_eq, if_pos more, parseUtf8Codepoint_encode, map_cons, exists_word_cons]
    dsimp only
    cases found : children.find? c.toNat with
    | none =>
      rw [found] at spec
      have noWord : ∀ word, ¬ children.HasWord (c.toNat :: word) :=
        fun word holds => spec word holds.hasPath
      simp [spec, noWord]
    | some node =>
      obtain ⟨mark, below⟩ := node
      rw [found] at spec
      obtain ⟨down, paths⟩ := spec
      cases mark with
      | true =>
        refine iff_of_true (by simp) (Or.inl ⟨[], ?_, nil_prefix⟩)
        exact (paths []).1.mpr (Or.inl ⟨rfl, rfl⟩)
      | false =>
        have next := ih down true (front ++ String.utf8EncodeChar c)
        rw [append_assoc, ← encode_cons, length_append,
          String.length_utf8EncodeChar] at next
        simp only [if_false, next, paths, and_false, false_or,
          map_eq_nil_iff, reduceCtorEq, false_and, or_false, and_true]
        exact or_congr_right or_comm

theorem codepointsFrom_encode (front : List Byte) (word : List Char) :
    codepointsFrom (front ++ encode word) front.length = word.map Char.toNat := by
  induction word generalizing front with
  | nil =>
    rw [codepointsFrom]
    split
    · rename_i decoded
      rw [parseUtf8Codepoint_beyond (by simp)] at decoded
      cases decoded
    · rfl
  | cons c word ih =>
    have next := ih (front ++ String.utf8EncodeChar c)
    rw [append_assoc, ← encode_cons, length_append,
      String.length_utf8EncodeChar] at next
    rw [codepointsFrom]
    split
    · rename_i decoded
      rw [parseUtf8Codepoint_encode] at decoded
      cases decoded
      rw [next, map_cons]
    · rename_i undecoded
      exact absurd (parseUtf8Codepoint_encode front) (undecoded _ _)

theorem map_isPrefix : word.map Char.toNat <+: text.map Char.toNat ↔ word <+: text :=
  prefix_map_iff_of_injective fun _ _ => Char.toNat_inj.mp

theorem bytesOf_eq_nil {d : String} : bytesOf d = [] ↔ d = "" := by
  rw [bytesOf_eq]
  constructor
  · intro empty
    have isPrefix : d.toList <+: [] := encode_isPrefix.mp (by rw [empty]; exact nil_prefix)
    simpa using isPrefix
  · rintro rfl
    rfl

theorem checkAt_stops (front : List Byte) (more : text ≠ []) :
    (trieOf delimiters).checkAt (front ++ encode text) front.length ≠ .noMatch ↔
      StopsAt delimiters (front ++ encode text) front.length := by
  have words : (delimiters.map fun d => codepointsFrom (bytesOf d) 0) =
      delimiters.map fun d => d.toList.map Char.toNat :=
    map_congr_left fun d _ => by rw [bytesOf_eq]; exact codepointsFrom_encode [] d.toList
  have holds := Trie.ofWords_holds (delimiters.map fun d => d.toList.map Char.toNat)
  have longer : front.length < (front ++ encode text).length := by
    cases text with
    | nil => exact absurd rfl more
    | cons c text => simp [c.utf8Size_pos]
  rw [trieOf, words, Trie.checkAt, checkFrom_stops holds.ordered]
  simp only [holds.hasWord, holds.hasPath, Begins, StopsAt, longer, true_and, drop_left,
    Bool.false_eq_true, and_false, or_false, mem_map]
  constructor
  · rintro (⟨_, ⟨nonempty, d, member, rfl⟩, stands⟩ | ⟨-, _, ⟨d, member, rfl⟩, cut⟩)
    · refine ⟨d, member, fun empty => nonempty (by rw [empty]; rfl), Or.inl ?_⟩
      rw [bytesOf_eq, encode_isPrefix]
      exact map_isPrefix.mp stands
    · have cut := map_isPrefix.mp cut
      refine ⟨d, member, fun empty => more ?_, Or.inr ?_⟩
      · rw [empty] at cut
        exact prefix_nil.mp cut
      · rw [bytesOf_eq, encode_isPrefix]
        exact cut
  · rintro ⟨d, member, nonempty, stands | cut⟩
    · rw [bytesOf_eq, encode_isPrefix] at stands
      exact Or.inl ⟨_, ⟨by simpa using nonempty, d, member, rfl⟩, map_isPrefix.mpr stands⟩
    · rw [bytesOf_eq, encode_isPrefix] at cut
      exact Or.inr ⟨by simpa using more, _, ⟨d, member, rfl⟩, map_isPrefix.mpr cut⟩

theorem not_stopsAt_inside {p : Nat} {b : Byte} {rest : List Byte} (suffix : input.drop p = b :: rest)
    (continues : isContinuation b = true) : ¬ StopsAt delimiters input p := by
  rintro ⟨-, d, -, nonempty, either⟩
  have lead : ∃ c tail, d.toList = c :: tail := by
    cases chars : d.toList with
    | nil => exact absurd (by simpa using chars) nonempty
    | cons c tail => exact ⟨c, tail, rfl⟩
  obtain ⟨c, tail, chars⟩ := lead
  have invalid := @firstCodepoint_continuation rest b continues
  have decoded := firstCodepoint_encode c (encode tail)
  rw [← encode_cons, ← chars, ← bytesOf_eq] at decoded
  rw [suffix] at either
  rcases either with ⟨more, same⟩ | ⟨more, same⟩
  · have longer := @firstCodepoint_append (bytesOf d) more (by simp [decoded])
    rw [same, invalid, decoded] at longer
    cases longer
  · have longer := @firstCodepoint_append (b :: rest) more (by simp [invalid])
    rw [same, invalid, decoded] at longer
    cases longer

theorem parseUntil_firstAt (startPos : Nat) (front : List Byte) (text : List Char) :
    ∃ end_, parseUntil (trieOf delimiters) false (front ++ encode text) startPos front.length =
        ⟨.success, startPos, end_, []⟩ ∧
      FirstAt (StopsAt delimiters (front ++ encode text)) front.length
        (front ++ encode text).length end_ := by
  induction text generalizing front with
  | nil =>
    refine ⟨front.length, ?_, le_refl _, by simp, Or.inl (by simp), fun p after before => ?_⟩
    · rw [parseUntil_eq, if_neg (by simp), if_neg (by simp)]
    · omega
  | cons c text ih =>
    have longer : front.length < (front ++ encode (c :: text)).length := by simp [c.utf8Size_pos]
    have stops := @checkAt_stops delimiters _ front (cons_ne_nil c text)
    rw [parseUntil_eq, if_pos longer, parseUtf8Codepoint_encode]
    by_cases here : (trieOf delimiters).checkAt (front ++ encode (c :: text)) front.length = .noMatch
    · rw [here]
      obtain ⟨end_, parsed, firstAt⟩ := ih (front ++ String.utf8EncodeChar c)
      rw [append_assoc, length_append,
        String.length_utf8EncodeChar] at parsed firstAt
      have := firstAt.after
      refine ⟨end_, parsed, by omega, firstAt.inside, firstAt.stands, fun p after before => ?_⟩
      by_cases atStart : p = front.length
      · subst atStart
        exact fun stop => stops.mpr stop here
      · by_cases inChar : p < front.length + c.utf8Size
        · obtain ⟨b, rest, suffix, continues⟩ :=
            @drop_inside text c (p - front.length) (by omega) (by omega)
          refine @not_stopsAt_inside _ _ p b rest ?_ continues
          rw [drop_append, drop_of_length_le after]
          exact suffix
        · exact firstAt.first p (by omega) before
    · refine ⟨front.length, ?_, le_refl _, longer.le, Or.inr (stops.mp here), fun p after before => ?_⟩
      · cases found : (trieOf delimiters).checkAt (front ++ encode (c :: text)) front.length with
        | noMatch => exact absurd found here
        | partialMatch => rfl
        | completeMatch => rfl
      · omega

theorem StopsAt.of_cutAt {p : Nat} (cut : CutAt delimiters input p) : StopsAt delimiters input p := by
  obtain ⟨inside, d, member, isPrefix, -⟩ := cut
  refine ⟨inside, d, member, fun empty => ?_, Or.inr isPrefix⟩
  rw [bytesOf_eq_nil.mpr empty, prefix_nil, drop_eq_nil_iff] at isPrefix
  omega

theorem StopsAt.delimiterAt_or_cutAt {p : Nat} (stops : StopsAt delimiters input p) :
    DelimiterAt delimiters input p ∨ CutAt delimiters input p := by
  obtain ⟨inside, d, member, -, stands | cut⟩ := stops
  · exact Or.inl ⟨d, member, stands⟩
  · by_cases whole : input.drop p = bytesOf d
    · exact Or.inl ⟨d, member, by rw [whole]⟩
    · exact Or.inr ⟨inside, d, member, cut, whole⟩

theorem delimiterAt_of_empty (empty : "" ∈ delimiters) (p : Nat) : DelimiterAt delimiters input p :=
  ⟨"", empty, by rw [bytesOf_eq_nil.mpr rfl]; exact nil_prefix⟩

theorem stopsAt_of_delimiterAt {p : Nat} (absent : "" ∉ delimiters) (inside : p < input.length)
    (stands : DelimiterAt delimiters input p) : StopsAt delimiters input p := by
  obtain ⟨d, member, isPrefix⟩ := stands
  exact ⟨inside, d, member, fun empty => absent (empty ▸ member), Or.inl isPrefix⟩

theorem firstAt_delimiterAt_iff (stop : FirstAt (StopsAt delimiters input) start input.length end_) :
    FirstAt (DelimiterAt delimiters input) start input.length end_ ↔
      Complete delimiters input start := by
  obtain ⟨after, inside, stands, first⟩ := stop
  constructor
  · intro delimiter
    refine ⟨fun p from_ cut => ⟨end_, after, ?_, ?_⟩, fun empty => ?_⟩
    · by_contra later
      exact first p from_ (not_le.mp later) (.of_cutAt cut)
    · refine delimiter.stands.resolve_left fun atEnd => ?_
      exact first p from_ (atEnd ▸ cut.1) (.of_cutAt cut)
    · have atStart : end_ = start := by
        by_contra later
        exact delimiter.first start le_rfl (by omega) (delimiterAt_of_empty empty start)
      rw [atStart] at stands
      exact stands
  · intro complete
    by_cases empty : "" ∈ delimiters
    · have atStart : end_ = start := by
        rcases complete.nonempty empty with atEnd | stop
        · omega
        · by_contra later
          exact first start le_rfl (by omega) stop
      subst atStart
      exact ⟨le_rfl, inside, Or.inr (delimiterAt_of_empty empty _), fun p from_ before => by omega⟩
    · have none_ : ∀ p, start ≤ p → p < end_ → ¬ DelimiterAt delimiters input p := fun p from_ before
        delimiter => first p from_ before (stopsAt_of_delimiterAt empty (by omega) delimiter)
      refine ⟨after, inside, stands.imp_right fun stop => ?_, none_⟩
      rcases stop.delimiterAt_or_cutAt with here | cut
      · exact here
      · obtain ⟨q, from_, upTo, delimiter⟩ := complete.uncut end_ after cut
        rcases upTo.lt_or_eq with before | same
        · exact absurd delimiter (none_ q from_ before)
        · exact same ▸ delimiter

/-- The until parser in strict mode succeeds from every position between characters, and stops
at the first complete delimiter exactly when the end of the input cuts none before it. -/
theorem parseUntil_strict (delimiters : List String) (text : String) (start : Nat)
    (inside : start ≤ (bytesOf text).length) :
    let result := parseUntil (trieOf delimiters) false (bytesOf text) start start
    ((∃ front back, text.toList = front ++ back ∧ start = (encode front).length) →
      result.type = .success) ∧
    (result.type = .success →
      (FirstAt (DelimiterAt delimiters (bytesOf text)) start (bytesOf text).length result.end_ ↔
        Complete delimiters (bytesOf text) start)) := by
  have parses : ∀ front back, text.toList = front ++ back → start = (encode front).length →
      ∃ end_, parseUntil (trieOf delimiters) false (bytesOf text) start start =
          ⟨.success, start, end_, []⟩ ∧
        FirstAt (StopsAt delimiters (bytesOf text)) start (bytesOf text).length end_ := by
    intro front back same length
    rw [bytesOf_eq, same, encode_append, length]
    exact parseUntil_firstAt _ (encode front) back
  refine ⟨fun ⟨front, back, same, length⟩ => ?_, fun success => ?_⟩
  · obtain ⟨end_, parsed, -⟩ := parses front back same length
    rw [parsed]
  · rw [bytesOf_eq] at inside
    rcases boundary_or_inside inside with ⟨front, back, same, length⟩ | ⟨b, more, suffix, continues⟩
    · obtain ⟨end_, parsed, stop⟩ := parses front back same length
      rw [parsed]
      exact firstAt_delimiterAt_iff stop
    · rw [← bytesOf_eq] at suffix
      have decoded : parseUtf8Codepoint (bytesOf text) start = .invalid := by
        rw [parseUtf8Codepoint, suffix, firstCodepoint_continuation continues]
      have here : start < (bytesOf text).length := by
        by_contra beyond
        rw [drop_of_length_le (not_lt.mp beyond)] at suffix
        cases suffix
      rw [parseUntil_eq, if_pos here, decoded] at success
      cases success

/-- In the text `xab` the delimiter `b` is found. -/
theorem parseUntil_strict_at_xab :
    let result := parseUntil (trieOf ["b"]) false (bytesOf "xab") 0 0
    result.type = .success ∧
      FirstAt (DelimiterAt ["b"] (bytesOf "xab")) 0 (bytesOf "xab").length result.end_ := by
  have strict := parseUntil_strict ["b"] "xab" 0 (Nat.zero_le _)
  have success := strict.1 ⟨[], "xab".toList, rfl, rfl⟩
  refine ⟨success, (strict.2 success).mpr ⟨fun p _ cut => ?_, by simp⟩⟩
  obtain ⟨inside, d, member, isPrefix, notWhole⟩ := cut
  obtain rfl := mem_singleton.mp member
  have one : bytesOf "b" = [98] := by
    rw [bytesOf_eq]
    decide
  rw [one] at isPrefix notWhole
  rcases prefix_cons_iff.mp isPrefix with empty | ⟨rest, same, tail⟩
  · rw [drop_eq_nil_iff] at empty
    omega
  · rw [same, prefix_nil.mp tail] at notWhole
    exact absurd rfl notWhole

/-- In the text `xa` the delimiter `ab` does not stand, and the parser stops before the `a`. -/
theorem parseUntil_stops_at_cut : ¬ ∀ (delimiters : List String) (text : String) (start : Nat),
    start ≤ (bytesOf text).length →
      let result := parseUntil (trieOf delimiters) false (bytesOf text) start start
      result.type = .success →
        FirstAt (DelimiterAt delimiters (bytesOf text)) start (bytesOf text).length result.end_ := by
  intro claimed
  have first := claimed ["ab"] "xa" 0 (Nat.zero_le _)
  obtain ⟨end_, parsed, stop⟩ := @parseUntil_firstAt ["ab"] 0 [] "xa".toList
  rw [nil_append, ← bytesOf_eq] at parsed stop
  rw [length_nil] at parsed
  rw [parsed] at first
  have complete := (firstAt_delimiterAt_iff stop).mp (first rfl)
  obtain ⟨q, -, upTo, d, member, isPrefix⟩ := complete.uncut 1 (Nat.zero_le 1) (by
    rw [bytesOf_eq]
    refine ⟨by decide, "ab", mem_singleton_self _, ?_⟩
    rw [bytesOf_eq]
    decide)
  obtain rfl := mem_singleton.mp member
  revert isPrefix
  rw [bytesOf_eq, bytesOf_eq]
  rcases Nat.le_one_iff_eq_zero_or_eq_one.mp upTo with rfl | rfl <;> decide

end LlamaCpp.Peg
