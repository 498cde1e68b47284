import LlamaCpp.Ngram.Map

/-!
# The reads of a draft

The searches and the hash table stay inside the history whatever the map holds.  The two
comparisons at stored positions stay inside when the keys and values of the map fit the
history of the draft.
-/

set_option autoImplicit false

namespace LlamaCpp.Ngram

open LlamaCpp.Lib List

variable {start len : Nat} {inp : List Token}

theorem ngramHashFrom_inBounds {tokens : List Token} (inside : start + len ≤ tokens.length)
    (hash : Nat) : InBounds (ngramHashFrom tokens start len hash) fun _ => True := by
  induction len generalizing start hash with
  | zero => exact inBounds_ok trivial
  | succ len ih =>
    refine (readAt_inBounds (by omega)).bind fun token _ => ?_
    exact ih (by omega) _

theorem agrees_inBounds {pos : Nat} {key : List Token} (inside : pos + key.length ≤ inp.length) :
    InBounds (agrees inp pos key) fun _ => True := by
  induction key generalizing pos with
  | nil => exact inBounds_ok trivial
  | cons expected key ih =>
    rw [length_cons] at inside
    refine (readAt_inBounds (by omega)).bind fun token _ => ?_
    split
    · exact ih (by omega)
    · exact inBounds_ok trivial

theorem sameTokens_inBounds {first second : Nat} (firstInside : first + len ≤ inp.length)
    (secondInside : second + len ≤ inp.length) :
    InBounds (sameTokens inp first second len) fun _ => True := by
  induction len generalizing first second with
  | zero => exact inBounds_ok trivial
  | succ len ih =>
    refine (readAt_inBounds (by omega)).bind fun left _ => ?_
    refine (readAt_inBounds (by omega)).bind fun right _ => ?_
    split
    · exact ih (by omega) (by omega)
    · exact inBounds_ok trivial

theorem readRange_inBounds (inside : start + len ≤ inp.length) :
    InBounds (readRange inp start len) fun tokens => tokens.length = len := by
  induction len generalizing start with
  | zero => exact inBounds_ok rfl
  | succ len ih =>
    refine (readAt_inBounds (by omega)).bind fun token _ => ?_
    refine (ih (by omega)).bind fun rest restLength => ?_
    exact inBounds_ok (congrArg Nat.succ restLength)

theorem searchDown_inBounds {key : List Token} (low : Nat)
    (inside : start + key.length ≤ inp.length) :
    InBounds (searchDown inp key low start) fun found => found ≤ start := by
  induction start with
  | zero => exact inBounds_ok (le_refl 0)
  | succ j ih =>
    rw [searchDown]
    split
    · refine (agrees_inBounds inside).bind fun found _ => ?_
      split
      · exact inBounds_ok (Nat.le_refl (j + 1))
      · exact (ih (by omega)).mono fun found below => Nat.le_succ_of_le below
    · exact inBounds_ok (Nat.zero_le (j + 1))

theorem KeyMap.read_inBounds {table : KeyMap} {i : Nat} (inside : i < table.size) :
    InBounds (table.read i) fun _ => True := by
  rw [KeyMap.read, if_pos inside]
  exact inBounds_ok trivial

theorem addHashes_inBounds {n : Nat} (low : Nat) {table : KeyMap} (nonempty : 0 < table.size)
    (inside : start + n ≤ inp.length) :
    InBounds (addHashes inp n low start table) fun added => added.size = table.size := by
  induction start generalizing table with
  | zero => exact inBounds_ok rfl
  | succ j ih =>
    rw [addHashes]
    split
    · refine (ngramHashFrom_inBounds inside 0).bind fun hash _ => ?_
      refine (KeyMap.read_inBounds (Nat.mod_lt _ nonempty)).bind fun old _ => ?_
      split
      · exact ih nonempty (by omega)
      · exact ih nonempty (by omega)
    · exact inBounds_ok rfl

namespace NgramMap

/-- What holds of a history long enough for a draft that extends the one of the last begin. -/
structure Draftable (map : NgramMap) (inp : List Token) : Prop where
  long : 2 * map.n + map.m ≤ inp.length
  extends_ : map.sizeLastBegin ≤ inp.length

theorem one_le_n (map : NgramMap) : 1 ≤ map.n := map.sizeKey_pos

variable {map : NgramMap} {inp key : List Token} {m : Nat} {values : List MapValue}
  {matchPos length offset : Nat} {current : MapKey}

section

variable (draftable : map.Draftable inp)
include draftable

theorem Draftable.room : map.n + map.m + 1 ≤ inp.length := by
  have long := draftable.long
  have positive := map.one_le_n
  omega

theorem keyTokens_inBounds (sampled : Token) :
    InBounds (map.keyTokens inp sampled) fun key => key.length = map.n := by
  have room := draftable.room
  have positive := map.one_le_n
  refine (readRange_inBounds (by omega)).bind fun before beforeLength => ?_
  refine inBounds_ok ?_
  rw [length_append, length_singleton]
  omega

section

variable (keyLength : key.length = map.n)
include keyLength

theorem findHashed_inBounds :
    InBounds (map.findHashed inp key) fun pos => pos + map.n + map.m + 1 ≤ inp.length := by
  have room := draftable.room
  rw [findHashed]
  split
  · exact inBounds_ok (by omega)
  · rename_i nonempty
    refine (ngramHashFrom_inBounds (by omega) 0).bind fun hash _ => ?_
    refine (KeyMap.read_inBounds (Nat.mod_lt _ (Nat.pos_of_ne_zero nonempty))).bind fun idx _ => ?_
    split
    · refine (agrees_inBounds (by omega)).bind fun same _ => ?_
      split
      · exact inBounds_ok (by omega)
      · exact inBounds_ok (by omega)
    · exact inBounds_ok (by omega)

theorem findBeforeBegin_inBounds :
    InBounds (map.findBeforeBegin inp key) fun pos => pos + map.n + map.m + 1 ≤ inp.length := by
  have room := draftable.room
  have begun := draftable.extends_
  rw [findBeforeBegin]
  split
  · exact (searchDown_inBounds _ (by omega)).mono fun pos below => by omega
  · exact inBounds_ok (by omega)

theorem findAfterBegin_inBounds :
    InBounds (map.findAfterBegin inp key) fun pos => pos + map.n + map.m + 1 ≤ inp.length := by
  have room := draftable.room
  exact (searchDown_inBounds _ (by omega)).mono fun pos below => by omega

theorem findMatch_inBounds :
    InBounds (map.findMatch inp key) fun pos => pos + map.n + map.m + 1 ≤ inp.length := by
  refine (findHashed_inBounds draftable keyLength).bind fun hashed hashedRoom => ?_
  split
  · exact inBounds_ok hashedRoom
  · refine (findBeforeBegin_inBounds draftable keyLength).bind fun before beforeRoom => ?_
    split
    · exact inBounds_ok beforeRoom
    · exact findAfterBegin_inBounds draftable keyLength

end

theorem addHashesBeforeBegin_inBounds
    (nonempty : 0 < map.keyMap.size) :
    InBounds (map.addHashesBeforeBegin inp) fun table => table.size = map.keyMap.size := by
  have begun := draftable.extends_
  rw [addHashesBeforeBegin]
  split
  · exact addHashes_inBounds _ nonempty (by omega)
  · exact inBounds_ok rfl

end

def SameButHashes (map other : NgramMap) : Prop :=
  ∃ table lastIdx, other = { map with keyMap := table, keyMapLastIdx := lastIdx }

theorem updateHashes_inBounds (draftable : map.Draftable inp) :
    InBounds (map.updateHashes inp) map.SameButHashes := by
  have room := draftable.room
  rw [updateHashes]
  split
  · exact inBounds_ok ⟨_, _, rfl⟩
  · rename_i hashSize
    have nonempty := Nat.pos_of_ne_zero hashSize
    refine (addHashesBeforeBegin_inBounds draftable nonempty).bind fun before beforeSize => ?_
    refine (addHashes_inBounds _ (beforeSize ▸ nonempty) (by omega)).bind fun table _ => ?_
    exact inBounds_ok ⟨_, _, rfl⟩

/-- The m-grams of the values that are in use end inside `length` tokens. -/
def ValuesFit (m length : Nat) (values : List MapValue) : Prop :=
  ∀ value ∈ values, value.valueIdx ≠ 0 → value.valueIdx + m ≤ length

instance (m length : Nat) (values : List MapValue) : Decidable (ValuesFit m length values) :=
  inferInstanceAs (Decidable (∀ value ∈ values, _))

/-- The n-gram of every key and the m-grams of its values end inside `length` tokens. -/
def Fits (map : NgramMap) (length : Nat) : Prop :=
  ∀ key ∈ map.keys, key.keyIdx + map.n ≤ length ∧ ValuesFit map.m length key.values

instance (map : NgramMap) (length : Nat) : Decidable (map.Fits length) :=
  inferInstanceAs (Decidable (∀ key ∈ map.keys, _))

def FourSlots (map : NgramMap) : Prop := ∀ key ∈ map.keys, key.values.length = maxValues

theorem findKey_inBounds {keys : List MapKey}
    (fit : ∀ stored ∈ keys, stored.keyIdx + key.length ≤ inp.length) :
    InBounds (findKey inp key keys) fun offset => offset ≤ keys.length := by
  induction keys with
  | nil => exact inBounds_ok (le_refl 0)
  | cons candidate rest ih =>
    refine (agrees_inBounds (fit candidate (mem_cons_self ..))).bind fun found _ => ?_
    split
    · exact inBounds_ok (Nat.zero_le _)
    · have restFits : ∀ stored ∈ rest, stored.keyIdx + key.length ≤ inp.length :=
        fun stored member => fit stored (mem_cons_of_mem _ member)
      refine (ih restFits).bind fun offset below => ?_
      exact inBounds_ok (Nat.succ_le_succ below)

def ValuesOk (m length : Nat) (values : List MapValue) : Prop :=
  values.length = maxValues ∧ ValuesFit m length values

theorem placeValue_inBounds (accepted : Int16) {start : Nat} (room : start + m ≤ inp.length)
    (fit : ValuesFit m inp.length values) :
    InBounds (placeValue inp accepted m start values) fun placed =>
      placed.length = values.length ∧ ValuesFit m inp.length placed := by
  induction values with
  | nil => exact inBounds_ok ⟨rfl, fit⟩
  | cons value rest ih =>
    have restFits : ValuesFit m inp.length rest :=
      fun other member => fit other (mem_cons_of_mem _ member)
    rw [placeValue]
    split
    · refine inBounds_ok ⟨rfl, fun other member used => ?_⟩
      rcases mem_cons.mp member with here | later
      · rw [here]
        exact room
      · exact restFits other later used
    · rename_i inUse
      have valueFits := fit value (mem_cons_self ..) inUse
      refine (sameTokens_inBounds room valueFits).bind fun same _ => ?_
      split
      · refine inBounds_ok ⟨rfl, fun other member used => ?_⟩
        rcases mem_cons.mp member with here | later
        · rw [here]
          exact valueFits
        · exact restFits other later used
      · refine (ih restFits).bind fun placed placedOk => ?_
        refine inBounds_ok ⟨congrArg Nat.succ placedOk.1, fun other member used => ?_⟩
        rcases mem_cons.mp member with here | later
        · exact here ▸ valueFits
        · exact placedOk.2 other later used

theorem countValues_inBounds (keyLength : key.length = map.n)
    (room : matchPos + map.n + map.m + 1 ≤ inp.length) (start : Nat)
    (valuesOk : ValuesOk map.m inp.length values) :
    InBounds (map.countValues inp key start matchPos values) (ValuesOk map.m inp.length) := by
  refine inBounds_foldlM _ _ (fun i member current currentOk => ?_) values valuesOk
  have inside : i ≤ matchPos := by
    have bounds := mem_range'_1.mp member
    omega
  refine (agrees_inBounds (by omega)).bind fun found _ => ?_
  split
  · refine (placeValue_inBounds _ (by omega) currentOk.2).mono fun placed placedOk => ?_
    exact ⟨placedOk.1.trans currentOk.1, placedOk.2⟩
  · exact inBounds_ok currentOk

theorem logValues_inBounds (verbose : Bool) (fit : ValuesFit m inp.length values) :
    InBounds (logValues inp m verbose values) fun _ => True := by
  rw [logValues]
  split
  · refine inBounds_foldlM (fun _ => True) _ (fun value member _ _ => ?_) () trivial
    obtain ⟨stored, inUse⟩ := mem_filter.mp member
    have valueFits := fit value stored (of_decide_eq_true inUse)
    have read := readRange_inBounds valueFits
    exact read.bind fun _ _ => inBounds_ok trivial
  · exact inBounds_ok trivial

theorem slotMaxFrom_lt {v most best bound : Nat} (bestInside : best < bound)
    (inside : v + values.length ≤ bound) : slotMaxFrom values v most best < bound := by
  induction values generalizing v most best with
  | nil => exact bestInside
  | cons value rest ih =>
    rw [length_cons] at inside
    rw [slotMaxFrom]
    split
    · exact ih (by omega) (by omega)
    · exact ih bestInside (by omega)

theorem slotMax_lt (fourSlots : values.length = maxValues) : slotMax values < maxValues :=
  slotMaxFrom_lt (by decide) (by omega)

theorem draftTokens_inBounds (room : matchPos + map.n + map.m + 1 ≤ inp.length) (accepted : Int16) :
    InBounds (map.draftTokens inp matchPos accepted) fun _ => True := by
  refine (readRange_inBounds ?_).mono fun _ _ => trivial
  omega

/-- What a draft over `length` tokens leaves of a map. -/
structure Drafted (before : NgramMap) (length : Nat) (after : NgramMap) : Prop where
  sizes : after.n = before.n ∧ after.m = before.m
  begun : after.sizeLastBegin = before.sizeLastBegin
  slots : after.FourSlots
  valueSlot : after.lastDraftValueIdx < maxValues
  keySlot : after.lastDraftCreated = true → after.lastDraftKeyIdx < after.keys.length
  fits : before.Fits length → after.Fits length
  checked : after.idxLastCheck = before.idxLastCheck

/-- A key that may stand in the map of a draft over `length` tokens. -/
def KeyOk (map : NgramMap) (length : Nat) (key : MapKey) : Prop :=
  key.keyIdx + map.n ≤ length ∧ ValuesOk map.m length key.values

theorem newKey_ok (room : matchPos + map.n + map.m + 1 ≤ length) :
    map.KeyOk length (map.newKey matchPos) := by
  have here : matchPos + map.n ≤ length := by omega
  refine ⟨here, length_replicate, fun value member used => ?_⟩
  rw [eq_of_mem_replicate member] at used
  exact absurd rfl used

theorem keyOk_of_set (keysOk : ∀ key ∈ map.keys, map.KeyOk length key)
    (currentOk : map.KeyOk length current) :
    ∀ key ∈ map.keys.set offset current, map.KeyOk length key := by
  intro key member
  rcases mem_or_eq_of_mem_set member with kept | replaced
  · exact keysOk key kept
  · exact replaced ▸ currentOk

theorem draftFromValues_inBounds (keyLength : key.length = map.n)
    (room : matchPos + map.n + map.m + 1 ≤ inp.length)
    (keysOk : ∀ stored ∈ map.keys, map.KeyOk inp.length stored)
    (inside : offset < map.keys.length) (currentOk : map.KeyOk inp.length current)
    (undrafted : map.lastDraftCreated = false) (valueSlot : map.lastDraftValueIdx < maxValues)
    (verbose : Bool) :
    InBounds (map.draftFromValues inp key matchPos offset current verbose) fun result =>
      map.Drafted inp.length result.1 := by
  refine (countValues_inBounds keyLength room current.statIdx currentOk.2).bind
    fun values valuesOk => ?_
  refine (logValues_inBounds verbose valuesOk.2).bind fun _ _ => ?_
  have slotInside := slotMax_lt valuesOk.1
  have readable : slotMax values < values.length := valuesOk.1 ▸ slotInside
  have countedOk := @keyOk_of_set map inp.length offset ⟨current.keyIdx, matchPos, current.keyNum,
    values⟩ keysOk ⟨currentOk.1, valuesOk⟩
  refine (readAt_inBounds readable).bind fun chosen _ => ?_
  split
  · exact inBounds_ok ⟨⟨rfl, rfl⟩, rfl, fun stored member => (countedOk stored member).2.1, valueSlot,
      fun created => absurd (undrafted.symm.trans created) (by decide),
      fun _ stored member => ⟨(countedOk stored member).1, (countedOk stored member).2.2⟩, rfl⟩
  · refine (draftTokens_inBounds room chosen.nAccepted).bind fun tokens _ => ?_
    exact inBounds_ok ⟨⟨rfl, rfl⟩, rfl, fun stored member => (countedOk stored member).2.1, slotInside,
      fun _ => (@length_set _ map.keys _ _).symm ▸ inside,
      fun _ stored member => ⟨(countedOk stored member).1, (countedOk stored member).2.2⟩, rfl⟩

theorem draftFromKey_inBounds (keyLength : key.length = map.n)
    (room : matchPos + map.n + map.m + 1 ≤ inp.length)
    (keysOk : ∀ stored ∈ map.keys, map.KeyOk inp.length stored)
    (inside : offset < map.keys.length) (currentOk : map.KeyOk inp.length current)
    (undrafted : map.lastDraftCreated = false) (valueSlot : map.lastDraftValueIdx < maxValues)
    (verbose : Bool) :
    InBounds (map.draftFromKey inp key matchPos offset current verbose) fun result =>
      map.Drafted inp.length result.1 := by
  have setOk := @keyOk_of_set map inp.length offset current keysOk currentOk
  rw [draftFromKey]
  split
  · have readable : 0 < current.values.length := currentOk.2.1 ▸ (by decide : 0 < maxValues)
    refine (readAt_inBounds readable).bind fun first _ => ?_
    refine (draftTokens_inBounds room first.nAccepted).bind fun tokens _ => ?_
    exact inBounds_ok ⟨⟨rfl, rfl⟩, rfl, fun stored member => (setOk stored member).2.1,
      (by decide : 0 < maxValues), fun _ => (@length_set _ map.keys _ _).symm ▸ inside,
      fun _ stored member => ⟨(setOk stored member).1, (setOk stored member).2.2⟩, rfl⟩
  · split
    · exact inBounds_ok ⟨⟨rfl, rfl⟩, rfl, fun stored member => (setOk stored member).2.1, valueSlot,
        fun created => absurd (undrafted.symm.trans created) (by decide),
        fun _ stored member => ⟨(setOk stored member).1, (setOk stored member).2.2⟩, rfl⟩
    · exact draftFromValues_inBounds keyLength room keysOk inside currentOk undrafted valueSlot verbose

theorem draftFromMatch_inBounds (keyLength : key.length = map.n)
    (room : matchPos + map.n + map.m + 1 ≤ inp.length) (slots : map.FourSlots)
    (fits : map.Fits inp.length) (undrafted : map.lastDraftCreated = false)
    (valueSlot : map.lastDraftValueIdx < maxValues) (verbose : Bool) :
    InBounds (map.draftFromMatch inp key matchPos verbose) fun result =>
      map.Drafted inp.length result.1 := by
  have storedFit : ∀ stored ∈ map.keys, stored.keyIdx + key.length ≤ inp.length := by
    intro stored member
    rw [keyLength]
    exact (fits stored member).1
  refine (findKey_inBounds storedFit).bind fun offset offsetBound => ?_
  -- the key is one of those stored or the one that is added after them
  let keys := if offset = map.keys.length then map.keys ++ [map.newKey matchPos] else map.keys
  have keysOk : ∀ stored ∈ keys, map.KeyOk inp.length stored := by
    intro stored member
    have old : stored ∈ map.keys → map.KeyOk inp.length stored :=
      fun present => ⟨(fits stored present).1, slots stored present, (fits stored present).2⟩
    simp only [keys] at member
    split at member
    · rcases mem_append.mp member with present | added
      · exact old present
      · exact mem_singleton.mp added ▸ newKey_ok room
    · exact old member
  have inside : offset < keys.length := by
    simp only [keys]
    split
    · rw [length_append, length_singleton]
      omega
    · omega
  refine (readAt_inBounds inside).bind fun current member => ?_
  have currentOk := keysOk current member
  have drafted := @draftFromKey_inBounds { map with keys := keys } inp key matchPos offset
    ⟨current.keyIdx, current.statIdx, min (current.keyNum + 1) maxValueCount, current.values⟩
    keyLength room keysOk inside currentOk undrafted valueSlot verbose
  have pushedFits : ({ map with keys := keys } : NgramMap).Fits inp.length :=
    fun stored member => ⟨(keysOk stored member).1, (keysOk stored member).2.2⟩
  exact drafted.mono fun result after => ⟨after.sizes, after.begun, after.slots, after.valueSlot,
    after.keySlot, fun _ => after.fits pushedFits, after.checked⟩

def findsMatch (map : NgramMap) (inp : List Token) (sampled : Token) : Bool :=
  decide (2 * map.n + map.m ≤ inp.length) &&
    match map.keyTokens inp sampled >>= map.findMatch inp with
    | .ok pos => pos != 0
    | .error _ => false

/-- A draft reads nothing outside of its history when it finds no match or all stored positions
fit the history. -/
theorem draft_inBounds (begun : map.sizeLastBegin ≤ inp.length) (slots : map.FourSlots)
    (sampled : Token) (fits : map.findsMatch inp sampled = true → map.Fits inp.length)
    (verbose : Bool) : InBounds (map.draft inp sampled verbose) fun result =>
      result.1 = map.resetDraft ∨
        ({ map.resetDraft with idxLastCheck := inp.length } : NgramMap).Drafted inp.length
          result.1 := by
  rw [draft]
  split
  · exact inBounds_ok (Or.inl rfl)
  · split
    · exact inBounds_aborted
    · rename_i long _
      let checked : NgramMap := { map.resetDraft with idxLastCheck := inp.length }
      have draftable : checked.Draftable inp := ⟨not_lt.mp long, begun⟩
      refine (keyTokens_inBounds draftable sampled).bind_of fun key keyFound keyLength => ?_
      refine (findMatch_inBounds draftable keyLength).bind_of fun matchPos matchFound room => ?_
      refine (updateHashes_inBounds draftable).bind fun hashed same => ?_
      obtain ⟨table, lastIdx, rfl⟩ := same
      split
      · exact inBounds_ok (Or.inr ⟨⟨rfl, rfl⟩, rfl, slots, (by decide : 0 < maxValues), nofun, id, rfl⟩)
      · rename_i found
        have finds : map.findsMatch inp sampled = true := by
          have keyEq : map.keyTokens inp sampled = .ok key := keyFound
          have matchEq : map.keyTokens inp sampled >>= map.findMatch inp = .ok matchPos :=
            keyEq ▸ matchFound
          rw [findsMatch, matchEq, decide_eq_true (not_lt.mp long)]
          exact bne_iff_ne.mpr found
        have drafted := @draftFromMatch_inBounds
          { checked with keyMap := table, keyMapLastIdx := lastIdx } inp key matchPos keyLength room
          slots (fits finds) rfl (by decide : 0 < maxValues) verbose
        exact drafted.mono fun result after => Or.inr ⟨after.sizes, after.begun, after.slots,
          after.valueSlot, after.keySlot, after.fits, after.checked⟩

structure Accepted (before after : NgramMap) : Prop where
  begun : after.sizeLastBegin = before.sizeLastBegin
  slots : after.FourSlots
  valueSlot : after.lastDraftValueIdx < maxValues
  keySlot : after.lastDraftCreated = true → after.lastDraftKeyIdx < after.keys.length
  fits : ∀ length, before.Fits length → after.Fits length
  checked : after.idxLastCheck = before.idxLastCheck

theorem valuesFit_set {slot : Nat} (fit : ValuesFit m length values) {value : MapValue}
    (member : value ∈ values) (nAccepted : Int16) :
    ValuesFit m length (values.set slot { value with nAccepted := nAccepted }) := by
  intro other otherMember used
  rcases mem_or_eq_of_mem_set otherMember with kept | replaced
  · exact fit other kept used
  · rw [replaced] at used ⊢
    exact fit value member used

theorem accept_inBounds (slots : map.FourSlots) (valueSlot : map.lastDraftValueIdx < maxValues)
    (keySlot : map.lastDraftCreated = true → map.lastDraftKeyIdx < map.keys.length)
    (nAccepted : UInt16) : InBounds (map.accept nAccepted) map.Accepted := by
  rw [accept]
  split
  · rename_i created
    refine (readAt_inBounds (keySlot created)).bind fun key member => ?_
    have keySlots := slots key member
    refine (readAt_inBounds (keySlots ▸ valueSlot)).bind fun value valueMember => ?_
    refine inBounds_ok ⟨rfl, ?_, valueSlot, ?_, ?_, rfl⟩
    · intro stored storedMember
      rcases mem_or_eq_of_mem_set storedMember with kept | replaced
      · exact slots stored kept
      · rw [replaced, length_set]
        exact keySlots
    · intro _
      rw [length_set]
      exact keySlot created
    · intro length fits stored storedMember
      rcases mem_or_eq_of_mem_set storedMember with kept | replaced
      · exact fits stored kept
      · rw [replaced]
        exact ⟨(fits key member).1, valuesFit_set (fits key member).2 valueMember _⟩
  · exact inBounds_ok ⟨rfl, slots, valueSlot, keySlot, fun _ => id, rfl⟩

theorem length_dropValue (limit : Nat) (values : List MapValue) (j : Nat) :
    (dropValue limit values j).length = values.length := by
  rw [dropValue]
  split
  · rename_i value last found _
    split
    · have inside := (List.getElem?_eq_some_iff.mp found).1
      rw [length_append, length_eraseIdx_of_lt inside, length_singleton]
      omega
    · rfl
  · rfl

theorem length_keptValues (limit : Nat) (values : List MapValue) :
    (keptValues limit values).length = values.length := by
  simp [keptValues, length_dropValue]

theorem length_values_of_refreshKey {limit : Nat} {keyOnly : Bool} {key kept : MapKey}
    (refreshed : refreshKey limit keyOnly key = some kept) :
    kept.values.length = key.values.length := by
  rw [refreshKey] at refreshed
  split_ifs at refreshed
  · rw [← Option.some.inj refreshed]
  · rw [← Option.some.inj refreshed]
    exact length_keptValues limit key.values

theorem begin_fourSlots (slots : map.FourSlots) (tokens : List Token) :
    (map.begin_ tokens).FourSlots := by
  have hashed : (map.refreshHashes tokens.length).FourSlots := by
    rw [refreshHashes]
    split
    · exact slots
    · exact slots
  change ((map.refreshHashes tokens.length).refreshKeys tokens.length).FourSlots
  rw [refreshKeys]
  split
  · intro kept member
    obtain ⟨key, keyMember, refreshed⟩ := mem_filterMap.mp member
    exact (length_values_of_refreshKey refreshed).trans (hashed key keyMember)
  · exact hashed

theorem begin_lastDraftValueIdx (map : NgramMap) (tokens : List Token) :
    (map.begin_ tokens).lastDraftValueIdx = map.lastDraftValueIdx := by
  simp only [begin_, refreshKeys, refreshHashes]
  split_ifs <;> rfl

end NgramMap

end LlamaCpp.Ngram
