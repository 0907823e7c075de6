import Mathlib.Data.Finset.Basic

/-!
# Validated heights

The handles of a store share a tip, up to which every height is validated, and each has its own set of validated
heights above it. The atomic operations of all calls interleave, so that a marker may lower the tip.
-/

namespace Zaino.ChainStore.Validation

open List

inductive Request
  | isValidated (h : UInt32)
  | markValidated (h : UInt32)

/-- A call, before its next atomic operation. -/
inductive Call
  | load (request : Request)
  | contains (h : UInt32)
  | answered (h : UInt32) (validated : Bool)
  | compareExchange (tip next : UInt32)
  | insert (next : UInt32)
  | remove (next : UInt32)
  | store (next : UInt32)
  | returned

/-- An operation on the tip and the set of a call's handle, and where the call stands then. -/
def Call.step (tip : UInt32) (set : Finset UInt32) : Call → UInt32 × Finset UInt32 × Call
  | load (.isValidated h) => (tip, set, if h ≤ tip then answered h true else contains h)
  | load (.markValidated next) =>
    (tip, set, if next = tip + 1 then compareExchange tip next else if tip < next then insert next else returned)
  | contains h => (tip, set, answered h (h ∈ set))
  | compareExchange loaded next =>
    if tip = loaded then (next, set, remove (next + 1))
    -- Another task has moved the tip: the loop starts again.
    else (tip, set, load (.markValidated next))
  | insert next => (tip, set ∪ {next}, returned)
  | remove next => if next ∈ set then (tip, set.erase next, store next) else (tip, set, returned)
  | store next => (next, set, remove (next + 1))
  | ended => (tip, set, ended)

/-- A store with the sets of its handles, and the calls on them. -/
structure Tracker where
  validatedTip : UInt32
  validatedSets : Nat → Finset UInt32
  calls : List (Nat × Call)

inductive Event
  /-- The tip is shared, the set copied. -/
  | clone (handle copy : Nat)
  | call (handle : Nat) (request : Request)
  | step (call : Nat)

def Tracker.next (self : Tracker) : Event → Tracker
  | .clone handle copy =>
    { self with validatedSets := Function.update self.validatedSets copy (self.validatedSets handle) }
  | .call handle request => { self with calls := self.calls ++ [(handle, .load request)] }
  | .step number =>
    match self.calls[number]? with
    | none => self
    | some (handle, call) =>
      let after := call.step self.validatedTip (self.validatedSets handle)
      ⟨after.1, Function.update self.validatedSets handle after.2.1, self.calls.set number (handle, after.2.2)⟩

/-- A store after some events, from when it was opened. -/
def run (events : List Event) : Tracker := events.foldl Tracker.next ⟨0, fun _ => ∅, []⟩

section Sound

variable (known : UInt32 → Prop)

/-- All that a handle shows as validated is known. -/
def Shows (tip : UInt32) (set : Finset UInt32) : Prop := (∀ h ≤ tip, known h) ∧ ∀ h ∈ set, known h

def Call.Relies : Call → Prop
  | load (.markValidated next) | insert next => known next
  | answered h validated => validated = true → known h
  | compareExchange tip next => next = tip + 1 ∧ known next
  | remove next => ∀ h < next, known h
  | store next => ∀ h ≤ next, known h
  | _ => True

def Tracker.Sound (self : Tracker) : Prop :=
  (∀ handle, Shows known self.validatedTip (self.validatedSets handle)) ∧ ∀ call ∈ self.calls, call.2.Relies known

variable {known} {self : Tracker}

theorem Call.step_sound {tip : UInt32} {set : Finset UInt32} {call : Call} (shows : Shows known tip set)
    (relies : call.Relies known) : Shows known (call.step tip set).1 (call.step tip set).2.1 ∧
      (call.step tip set).2.2.Relies known := by
  obtain ⟨covered, members⟩ := shows
  cases call with
  | load request => cases request <;> grind [step, Relies, Shows]
  | compareExchange loaded next =>
    obtain ⟨rfl, marked⟩ := relies
    simp only [step]
    split
    · next same =>
      have raised : ∀ h ≤ loaded + 1, known h := by
        intro h le
        -- The successor may have wrapped around to zero.
        rcases (by grind : h ≤ loaded ∨ h = loaded + 1) with below | rfl
        · exact covered h (same ▸ below)
        · exact marked
      exact ⟨⟨raised, members⟩, fun h lt => raised h (by grind)⟩
    · exact ⟨⟨covered, members⟩, marked⟩
  | _ => grind [step, Relies, Shows]

theorem Tracker.Sound.next {event : Event} (sound : self.Sound known)
    (marked : ∀ handle h, event = .call handle (.markValidated h) → known h) : (self.next event).Sound known := by
  obtain ⟨shows, relies⟩ := sound
  cases event with
  | clone handle copy =>
    refine ⟨fun other => ?_, relies⟩
    simp only [Tracker.next, Function.update_apply]
    split
    · exact shows handle
    · exact shows other
  | call handle request =>
    refine ⟨shows, forall_mem_append.mpr ⟨relies, forall_mem_singleton.mpr ?_⟩⟩
    cases request with
    | markValidated h => exact marked handle h rfl
    | _ => trivial
  | step number =>
    simp only [Tracker.next]
    split
    · exact ⟨shows, relies⟩
    · next handle call running =>
      have stepped := Call.step_sound (shows handle) (relies _ (mem_of_getElem? running))
      refine ⟨fun other => ⟨stepped.1.1, by grind [Shows]⟩, fun other member => ?_⟩
      rcases mem_or_eq_of_mem_set member with old | rfl
      · exact relies other old
      · exact stepped.2

end Sound

/-- However markers and queries interleave, the heights up to the tip were marked, and so was every height that a
query reports. Genesis counts from the start. -/
theorem validated_marked (events : List Event) :
    (∀ h ≤ (run events).validatedTip, h = 0 ∨ ∃ marker, .call marker (.markValidated h) ∈ events) ∧
      ∀ handle h, (handle, .answered h true) ∈ (run events).calls →
        h = 0 ∨ ∃ marker, .call marker (.markValidated h) ∈ events := by
  have opened : Tracker.Sound (fun h => h = 0 ∨ ∃ marker, .call marker (.markValidated h) ∈ events)
      ⟨0, fun _ => ∅, []⟩ :=
    ⟨fun _ => ⟨fun h le => Or.inl (by grind), by simp⟩, by simp⟩
  have sound := foldlRecOn events Tracker.next opened fun tracker sound event member =>
    sound.next fun marker h is_mark => Or.inr ⟨marker, is_mark ▸ member⟩
  exact ⟨(sound.1 0).1, fun handle h member => sound.2 _ member rfl⟩

end Zaino.ChainStore.Validation
