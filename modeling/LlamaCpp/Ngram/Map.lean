import LlamaCpp.Lib.Checked
import Mathlib.Data.List.Infix
import Mathlib.Algebra.GroupWithZero.Nat

/-!
# The map from n-grams to the m-grams that follow them

Keys and values are positions in the token history.  `begin_` is given a history that may be
shorter than the one before and removes the positions it takes to be gone; `draft` compares
the tokens at the positions that are left with the last tokens of its own history.
-/

set_option autoImplicit false

namespace LlamaCpp.Ngram

open LlamaCpp.Lib

abbrev Token := Int

def maxValues : Nat := 4

def maxValueCount : Nat := 16380

structure MapValue where
  valueIdx : Nat
  valueNum : Nat
  nAccepted : Int16
deriving DecidableEq

structure MapKey where
  keyIdx : Nat
  statIdx : Nat
  keyNum : Nat
  values : List MapValue
deriving DecidableEq

/-- `key_map`: from the hash of an n-gram to its position, 0 where there is none. -/
structure KeyMap where
  size : Nat
  slot : Nat → Nat

/-- `common_ngram_map`, for keys and values of at least one token. -/
structure NgramMap where
  sizeKey : UInt16
  sizeValue : UInt16
  sizeKey_pos : 1 ≤ sizeKey.toNat
  sizeValue_pos : 1 ≤ sizeValue.toNat
  keyOnly : Bool
  keys : List MapKey
  minHits : UInt16
  sizeLastBegin : Nat
  lastDraftCreated : Bool
  lastDraftKeyIdx : Nat
  lastDraftValueIdx : Nat
  idxLastCheck : Nat
  keyMap : KeyMap
  keyMapLastIdx : Nat

namespace KeyMap

def read (table : KeyMap) (i : Nat) : Checked Nat :=
  if i < table.size then .ok (table.slot i) else .error .outOfBounds

def write (table : KeyMap) (i idx : Nat) : KeyMap :=
  ⟨table.size, fun other => if other = i then idx else table.slot other⟩

/-- Clears the positions from `limit` on. -/
def clearFrom (table : KeyMap) (limit : Nat) : KeyMap :=
  ⟨table.size, fun i => if limit ≤ table.slot i then 0 else table.slot i⟩

end KeyMap

namespace NgramMap

def fresh (sizeKey sizeValue : UInt16) (sizeKey_pos : 1 ≤ sizeKey.toNat)
    (sizeValue_pos : 1 ≤ sizeValue.toNat) (keyOnly : Bool) (minHits : UInt16) (hashSize : Nat) :
    NgramMap where
  sizeKey := sizeKey
  sizeValue := sizeValue
  sizeKey_pos := sizeKey_pos
  sizeValue_pos := sizeValue_pos
  keyOnly := keyOnly
  keys := []
  minHits := minHits
  sizeLastBegin := 0
  lastDraftCreated := false
  lastDraftKeyIdx := 0
  lastDraftValueIdx := 0
  idxLastCheck := 0
  keyMap := ⟨hashSize, fun _ => 0⟩
  keyMapLastIdx := 0

/-- The number of tokens of a key, `n`. -/
def n (map : NgramMap) : Nat := map.sizeKey.toNat

/-- The number of tokens of a value, `m`. -/
def m (map : NgramMap) : Nat := map.sizeValue.toNat

end NgramMap

/-- `common_ngram_map_hash`, one token after the other from `start` on. -/
def ngramHashFrom (tokens : List Token) : Nat → Nat → Nat → Checked Nat
  | _, 0, hash => .ok hash
  | start, len + 1, hash => do
      let token ← readAt tokens start
      ngramHashFrom tokens (start + 1) len ((hash * 2654435761 + token) % 2 ^ 32).toNat

def ngramHash (tokens : List Token) (start len : Nat) : Checked Nat :=
  ngramHashFrom tokens start len 0

/-- Compares the tokens from `pos` on with `key` up to the first that differs. -/
def agrees (inp : List Token) : Nat → List Token → Checked Bool
  | _, [] => .ok true
  | pos, expected :: key => do
      let token ← readAt inp pos
      if token = expected then agrees inp (pos + 1) key else .ok false

def sameTokens (inp : List Token) : Nat → Nat → Nat → Checked Bool
  | _, _, 0 => .ok true
  | first, second, len + 1 => do
      let left ← readAt inp first
      let right ← readAt inp second
      if left = right then sameTokens inp (first + 1) (second + 1) len else .ok false

def readRange (inp : List Token) : Nat → Nat → Checked (List Token)
  | _, 0 => .ok []
  | start, len + 1 => do
      let token ← readAt inp start
      let rest ← readRange inp (start + 1) len
      return token :: rest

/-- The loops that go down from a position and stop above `low`; 0 when there is no match. -/
def searchDown (inp key : List Token) (low : Nat) : Nat → Checked Nat
  | 0 => .ok 0
  | j + 1 =>
    if low < j + 1 then do
      let found ← agrees inp (j + 1) key
      if found then .ok (j + 1) else searchDown inp key low j
    else .ok 0

def addHashes (inp : List Token) (n low : Nat) : Nat → KeyMap → Checked KeyMap
  | 0, table => .ok table
  | j + 1, table =>
    if low < j + 1 then do
      let hash ← ngramHash inp (j + 1) n
      let old ← table.read (hash % table.size)
      addHashes inp n low j (if old = 0 then table.write (hash % table.size) (j + 1) else table)
    else .ok table

namespace NgramMap

def dropValue (limit : Nat) (values : List MapValue) (j : Nat) : List MapValue :=
  match values[j]?, values.getLast? with
  | some value, some last =>
    if limit ≤ value.valueIdx then
      values.eraseIdx j ++ [{ last with valueIdx := 0, valueNum := 0 }]
    else values
  | _, _ => values

def keptValues (limit : Nat) (values : List MapValue) : List MapValue :=
  [3, 2, 1, 0].foldl (dropValue limit) values

/-- What is left of a key when the positions from `limit` on are gone. -/
def refreshKey (limit : Nat) (keyOnly : Bool) (key : MapKey) : Option MapKey :=
  if limit ≤ key.keyIdx then none
  else if keyOnly then some key
  else if (keptValues limit key.values).head?.map MapValue.valueIdx = some 0 then none
  else some { key with values := keptValues limit key.values }

def refreshHashes (map : NgramMap) (sizeBegin : Nat) : NgramMap :=
  if map.keyMap.size ≠ 0 ∧ sizeBegin < map.idxLastCheck then
    { map with
      keyMap := map.keyMap.clearFrom map.sizeLastBegin
      keyMapLastIdx := (map.sizeLastBegin - 1) % 2 ^ 32 }
  else map

def refreshKeys (map : NgramMap) (sizeBegin : Nat) : NgramMap :=
  if sizeBegin < map.idxLastCheck then
    { map with keys := map.keys.filterMap (refreshKey map.sizeLastBegin map.keyOnly) }
  else map

/-- `common_ngram_map_begin`. -/
def begin_ (map : NgramMap) (tokens : List Token) : NgramMap :=
  { (map.refreshHashes tokens.length).refreshKeys tokens.length with
    idxLastCheck := tokens.length
    sizeLastBegin := tokens.length }

def keyTokens (map : NgramMap) (inp : List Token) (sampled : Token) : Checked (List Token) := do
  let before ← readRange inp (inp.length - map.n + 1) (map.n - 1)
  return before ++ [sampled]

def findHashed (map : NgramMap) (inp key : List Token) : Checked Nat :=
  if map.keyMap.size = 0 then .ok 0
  else do
    let hash ← ngramHash key 0 map.n
    let idx ← map.keyMap.read (hash % map.keyMap.size)
    if idx ≠ 0 ∧ idx < inp.length - map.n - map.m - 1 then do
      let same ← agrees inp idx key
      return if same then idx else 0
    else .ok 0

def findBeforeBegin (map : NgramMap) (inp key : List Token) : Checked Nat :=
  if map.n + map.m + 1 < map.sizeLastBegin then
    searchDown inp key map.keyMapLastIdx (map.sizeLastBegin - map.n - map.m - 1)
  else .ok 0

def findAfterBegin (map : NgramMap) (inp key : List Token) : Checked Nat :=
  searchDown inp key (max map.sizeLastBegin map.keyMapLastIdx) (inp.length - map.n - map.m - 1)

def findMatch (map : NgramMap) (inp key : List Token) : Checked Nat := do
  let hashed ← map.findHashed inp key
  if hashed ≠ 0 then return hashed
  else do
    let before ← map.findBeforeBegin inp key
    if before ≠ 0 then return before else map.findAfterBegin inp key

def addHashesBeforeBegin (map : NgramMap) (inp : List Token) : Checked KeyMap :=
  if map.n + map.m + 1 < map.sizeLastBegin then
    addHashes inp map.n map.keyMapLastIdx (map.sizeLastBegin - map.n - map.m - 1) map.keyMap
  else .ok map.keyMap

def updateHashes (map : NgramMap) (inp : List Token) : Checked NgramMap :=
  if map.keyMap.size = 0 then .ok map
  else do
    let before ← map.addHashesBeforeBegin inp
    let table ← addHashes inp map.n (max map.sizeLastBegin map.keyMapLastIdx)
      (inp.length - map.n - map.m - 1) before
    return { map with
      keyMap := table
      keyMapLastIdx := max (inp.length - map.n - map.m - 1) map.keyMapLastIdx }

def findKey (inp key : List Token) : List MapKey → Checked Nat
  | [] => .ok 0
  | candidate :: rest => do
      let found ← agrees inp candidate.keyIdx key
      if found then .ok 0
      else do
        let offset ← findKey inp key rest
        return offset + 1

def newKey (map : NgramMap) (matchPos : Nat) : MapKey :=
  ⟨matchPos, 0, 0, List.replicate maxValues ⟨0, 0, map.sizeValue.toInt16⟩⟩

def bumpValue (value : MapValue) : MapValue :=
  { value with valueNum := min (value.valueNum + 1) maxValueCount }

/-- Counts the m-gram at `start` in its slot, or in the first free one. -/
def placeValue (inp : List Token) (accepted : Int16) (m start : Nat) :
    List MapValue → Checked (List MapValue)
  | [] => .ok []
  | value :: rest =>
    if value.valueIdx = 0 then .ok (bumpValue ⟨start, 0, accepted⟩ :: rest)
    else do
      let same ← sameTokens inp start value.valueIdx m
      if same then .ok (bumpValue value :: rest)
      else do
        let placed ← placeValue inp accepted m start rest
        return value :: placed

/-- Counts the m-gram after position `i` when the key stands there. -/
def countAt (map : NgramMap) (inp key : List Token) (values : List MapValue) (i : Nat) :
    Checked (List MapValue) := do
  let found ← agrees inp i key
  if found then placeValue inp map.sizeValue.toInt16 map.m (i + map.n) values else .ok values

/-- Counts the m-grams after the key from `start` up to the match. -/
def countValues (map : NgramMap) (inp key : List Token) (start matchPos : Nat)
    (values : List MapValue) : Checked (List MapValue) :=
  (List.range' start (matchPos + 1 - start)).foldlM (map.countAt inp key) values

def logValues (inp : List Token) (m : Nat) (verbose : Bool) (values : List MapValue) :
    Checked Unit :=
  if verbose then
    (values.filter fun value => value.valueIdx ≠ 0).foldlM
      (fun _ value => (readRange inp value.valueIdx m).map fun _ => ()) ()
  else .ok ()

def slotMaxFrom : List MapValue → Nat → Nat → Nat → Nat
  | [], _, _, best => best
  | value :: rest, v, most, best =>
    if most < value.valueNum then slotMaxFrom rest (v + 1) value.valueNum v
    else slotMaxFrom rest (v + 1) most best

def slotMax (values : List MapValue) : Nat := slotMaxFrom values 0 0 0

def sumOccur (values : List MapValue) (slot : Nat) : Nat :=
  ((values.eraseIdx slot).map MapValue.valueNum).sum

def draftTokens (map : NgramMap) (inp : List Token) (matchPos : Nat) (accepted : Int16) :
    Checked (List Token) :=
  readRange inp (matchPos + map.n) (min (map.m : Int) accepted.toInt).toNat

def withDraft (map : NgramMap) (offset slot : Nat) : NgramMap :=
  { map with lastDraftCreated := true, lastDraftKeyIdx := offset, lastDraftValueIdx := slot }

def draftFromValues (map : NgramMap) (inp key : List Token) (matchPos offset : Nat)
    (current : MapKey) (verbose : Bool) : Checked (NgramMap × List Token) := do
  let values ← map.countValues inp key current.statIdx matchPos current.values
  logValues inp map.m verbose values
  let counted := { map with
    keys := map.keys.set offset { current with statIdx := matchPos, values := values } }
  let chosen ← readAt values (slotMax values)
  if 0 < sumOccur values (slotMax values) ∧
      chosen.valueNum < 2 * sumOccur values (slotMax values) then
    return (counted, [])
  else do
    let tokens ← map.draftTokens inp matchPos chosen.nAccepted
    return (counted.withDraft offset (slotMax values), tokens)

def draftFromKey (map : NgramMap) (inp key : List Token) (matchPos offset : Nat)
    (current : MapKey) (verbose : Bool) : Checked (NgramMap × List Token) :=
  if map.keyOnly then do
    let first ← readAt current.values 0
    let tokens ← map.draftTokens inp matchPos first.nAccepted
    return (({ map with keys := map.keys.set offset current } : NgramMap).withDraft offset 0, tokens)
  else if current.keyNum < map.minHits.toNat then
    .ok ({ map with keys := map.keys.set offset current }, [])
  else map.draftFromValues inp key matchPos offset current verbose

def draftFromMatch (map : NgramMap) (inp key : List Token) (matchPos : Nat) (verbose : Bool) :
    Checked (NgramMap × List Token) := do
  let offset ← findKey inp key map.keys
  let keys := if offset = map.keys.length then map.keys ++ [map.newKey matchPos] else map.keys
  let current ← readAt keys offset
  ({ map with keys := keys } : NgramMap).draftFromKey inp key matchPos offset
    { current with keyNum := min (current.keyNum + 1) maxValueCount } verbose

/-- The start of `common_ngram_map_draft`. -/
def resetDraft (map : NgramMap) : NgramMap :=
  { map with lastDraftCreated := false, lastDraftKeyIdx := 0, lastDraftValueIdx := 0 }

/-- `common_ngram_map_draft`; `verbose` says whether the log prints at the level of the
information about the values. -/
def draft (map : NgramMap) (inp : List Token) (sampled : Token) (verbose : Bool) :
    Checked (NgramMap × List Token) :=
  if inp.length < 2 * map.n + map.m then .ok (map.resetDraft, [])
  else if 2 ^ 32 - 1 ≤ inp.length then .error .aborted
  else do
    let checked := { map.resetDraft with idxLastCheck := inp.length }
    let key ← checked.keyTokens inp sampled
    let matchPos ← checked.findMatch inp key
    let hashed ← checked.updateHashes inp
    if matchPos = 0 then return (hashed, [])
    else hashed.draftFromMatch inp key matchPos verbose

def accept (map : NgramMap) (nAccepted : UInt16) : Checked NgramMap :=
  if map.lastDraftCreated then do
    let key ← readAt map.keys map.lastDraftKeyIdx
    let value ← readAt key.values map.lastDraftValueIdx
    return { map with
      keys := map.keys.set map.lastDraftKeyIdx { key with
        values := key.values.set map.lastDraftValueIdx
          { value with nAccepted := nAccepted.toInt16 } } }
  else .ok map

end NgramMap

end LlamaCpp.Ngram
