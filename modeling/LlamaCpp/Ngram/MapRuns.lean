import LlamaCpp.Lib.Run
import LlamaCpp.Ngram.MapBounds

/-!
# Runs of begin, draft and accept

The histories of drafts extend the one given at the last begin, which may be any.  A begin
with a shorter history keeps the positions below the length of the begin before it, and it
deletes keys under a draft that is not accepted yet.  A run that meets neither, at a draft
with a match or at an accept, reads nothing out of bounds.
-/

set_option autoImplicit false

namespace LlamaCpp.Ngram

open LlamaCpp.Lib

structure Session where
  map : NgramMap
  history : List Token

inductive Call
  | begin_ (tokens : List Token)
  | draft (inp : List Token) (sampled : Token) (verbose : Bool)
  | accept (nAccepted : UInt16)

namespace Session

def apply (session : Session) : Call → Checked Session
  | .begin_ tokens => .ok ⟨session.map.begin_ tokens, tokens⟩
  | .draft inp sampled verbose => do
      let result ← session.map.draft inp sampled verbose
      return ⟨result.1, session.history⟩
  | .accept nAccepted => do
      let map ← session.map.accept nAccepted
      return ⟨map, session.history⟩

def step (session : Session) (call : Call) : Option Session :=
  match session.apply call with
  | .ok next => some next
  | .error _ => none

def Extends (session : Session) : Call → Prop
  | .draft inp _ _ => session.history <+: inp
  | _ => True

instance (session : Session) (call : Call) : Decidable (session.Extends call) :=
  match call with
  | .draft inp _ _ => inferInstanceAs (Decidable (session.history <+: inp))
  | .begin_ _ | .accept _ => inferInstanceAs (Decidable True)

/-- At a draft with a match the stored positions fit its history, and at an accept the key of
the draft is still there. -/
def Current (session : Session) : Call → Prop
  | .begin_ _ => True
  | .draft inp sampled _ => session.map.findsMatch inp sampled = true → session.map.Fits inp.length
  | .accept _ =>
    session.map.lastDraftCreated = true → session.map.lastDraftKeyIdx < session.map.keys.length

instance (session : Session) (call : Call) : Decidable (session.Current call) :=
  match call with
  | .begin_ _ => inferInstanceAs (Decidable True)
  | .draft _ _ _ => inferInstanceAs (Decidable (_ → _))
  | .accept _ => inferInstanceAs (Decidable (_ → _))

structure Consistent (session : Session) : Prop where
  begun : session.map.sizeLastBegin = session.history.length
  slots : session.map.FourSlots
  valueSlot : session.map.lastDraftValueIdx < maxValues

theorem Consistent.of_resetDraft {session : Session} (consistent : session.Consistent) :
    Consistent ⟨session.map.resetDraft, session.history⟩ :=
  ⟨consistent.begun, consistent.slots, (by decide : 0 < maxValues)⟩

theorem apply_inBounds {session : Session} (consistent : session.Consistent) {call : Call}
    (extends_ : session.Extends call) (current : session.Current call) :
    InBounds (session.apply call) Consistent := by
  cases call with
  | begin_ tokens =>
    exact inBounds_ok ⟨rfl, NgramMap.begin_fourSlots consistent.slots tokens,
      (NgramMap.begin_lastDraftValueIdx session.map tokens).symm ▸ consistent.valueSlot⟩
  | draft inp sampled verbose =>
    have begun : session.map.sizeLastBegin ≤ inp.length :=
      consistent.begun ▸ List.IsPrefix.length_le extends_
    refine (NgramMap.draft_inBounds begun consistent.slots sampled current verbose).bind
      fun result drafted => ?_
    rcases drafted with short | long
    · exact inBounds_ok (short ▸ consistent.of_resetDraft)
    · exact inBounds_ok ⟨long.begun.trans consistent.begun, long.slots, long.valueSlot⟩
  | accept nAccepted =>
    refine (NgramMap.accept_inBounds consistent.slots consistent.valueSlot current nAccepted).bind
      fun after accepted => ?_
    exact inBounds_ok ⟨accepted.begun.trans consistent.begun, accepted.slots, accepted.valueSlot⟩

def fresh (sizeKey sizeValue : UInt16) (sizeKey_pos : 1 ≤ sizeKey.toNat)
    (sizeValue_pos : 1 ≤ sizeValue.toNat) (keyOnly : Bool) (minHits : UInt16) (hashSize : Nat) :
    Session :=
  ⟨NgramMap.fresh sizeKey sizeValue sizeKey_pos sizeValue_pos keyOnly minHits hashSize, []⟩

theorem step_eq_some {session next : Session} {call : Call}
    (stepped : session.step call = some next) : session.apply call = .ok next := by
  rw [step] at stepped
  split at stepped
  · rename_i result applied
    rw [applied, Option.some.inj stepped]
  · cases stepped

theorem consistent_of_reaches {start session : Session} (initial : start.Consistent)
    (run : Reaches step (fun session call => session.Extends call ∧ session.Current call) start
      session) : session.Consistent :=
  run.invariant Consistent initial fun _ _ _ consistent allowed stepped =>
    (apply_inBounds consistent allowed.1 allowed.2).of_ok (step_eq_some stepped)

def oneToken : Session := fresh 1 1 (by decide) (by decide) true 1 262144

theorem outOfBounds_of_calls {start : Session} (calls : List Call) {call : Call}
    (fault : (runChecked step Extends start calls).any (fun session =>
      decide (session.Extends call) && isOutOfBounds (session.apply call)) = true) :
    ∃ session, Reaches step Extends start session ∧ session.Extends call ∧
      session.apply call = .error .outOfBounds := by
  obtain ⟨session, run, bad⟩ := exists_reaches_of_runChecked calls fault
  obtain ⟨extends_, faulty⟩ := Bool.and_eq_true_iff.mp bad
  exact ⟨session, run, of_decide_eq_true extends_, isOutOfBounds_iff.mp faulty⟩

end Session

end LlamaCpp.Ngram
