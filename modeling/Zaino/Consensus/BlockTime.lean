import Zaino.Library.OrderStatistic
import Zaino.Primitives

/-!
# Block-time rules and the candidate search

Block times are not monotonic. Consensus bounds a block's time by the median of the times of its eleven
predecessors only, and that median does not fall with the height. `CandidateSearch` searches the height
axis on it for a bracket that contains every block with a time in a range.

The search does not read block times itself. Polling it gives the height whose time it needs next, or its
result; whoever drives it supplies the time and polls again (`drive`).
-/

namespace Zaino.Consensus

/-- A block's time in seconds. The times are compared, and reduced with saturation at zero. -/
abbrev BlockTime : Type := Nat

/-- The number of predecessors that define a block's median-time-past. -/
def medianBlockSpan : Nat := 11

/-- From which height on a block's time must not exceed its median-time-past by more than the drift. -/
structure MaxBlockTimeDrift where
  enforcedFrom : Height
  deriving DecidableEq

namespace MaxBlockTimeDrift

def driftSeconds : Nat := 90 * 60

/-- Enforced at every height. -/
def mainnet : MaxBlockTimeDrift := ⟨.genesis⟩

/-- Enforced from height 653,606 on. -/
def testnet : MaxBlockTimeDrift := ⟨⟨653606, by decide⟩⟩

end MaxBlockTimeDrift

/-- The median of the last times, at most eleven, if there is any. -/
def medianTimePast (times : List BlockTime) : Option BlockTime :=
  if times.isEmpty then none
  else
    let windowStart := times.length - medianBlockSpan
    Library.median (times.drop windowStart)

/-! ## The binary search -/

/-- Addition of 32-bit integers that stops at their maximum. -/
def saturatingAdd (a b : Nat) : Nat := min (a + b) (2 ^ 32 - 1)

/-- A binary search over the heights from `lo` to `hi`. -/
structure BinarySearch where
  lo : Nat
  hi : Nat
  mid : Nat
  best : Option Nat
  deriving DecidableEq

namespace BinarySearch

def new (lo hi : Nat) : BinarySearch := ⟨lo, hi, saturatingAdd lo ((hi - lo) / 2), none⟩

def finished (search : BinarySearch) : Bool := decide (search.hi < search.lo)

def recomputeMid (search : BinarySearch) : BinarySearch :=
  if search.finished then search
  else { search with mid := saturatingAdd search.lo ((search.hi - search.lo) / 2) }

/-- Record the predicate at `mid`, for the largest height where it holds. -/
def recordTakeHighest (search : BinarySearch) (holds : Bool) : BinarySearch :=
  recomputeMid <|
    if holds then { search with best := some search.mid, lo := saturatingAdd search.mid 1 }
    else
      let hi := search.mid - 1
      { search with hi, lo := if search.mid = 0 then saturatingAdd hi 1 else search.lo }

/-- Record the predicate at `mid`, for the smallest height where it holds. -/
def recordTakeLowest (search : BinarySearch) (holds : Bool) : BinarySearch :=
  recomputeMid <|
    if holds then
      let hi := search.mid - 1
      { search with best := some search.mid, hi, lo := if search.mid = 0 then saturatingAdd hi 1 else search.lo }
    else { search with lo := saturatingAdd search.mid 1 }

end BinarySearch

/-! ## The search for the bracket -/

/-- A header that the search needed is missing at or below the pinned tip. -/
structure MissingHeader where
  height : Height
  deriving DecidableEq

/-- What the search needs next, or its result. -/
inductive SearchStep
  | need (height : Height)
  | done (bracket : Option HeightRange)
  | failed (missing : MissingHeader)
  deriving DecidableEq

/-- Which stage of the search is active. -/
inductive Phase
  /-- The chain is a single block. -/
  | genesisOnly
  /-- Locating the top of the bracket, the largest height with a median below `high`. -/
  | findHigh (search : BinarySearch)
  /-- Locating the bottom, the smallest height with a median of at least `low - drift`. -/
  | findLow (search : BinarySearch) (highBound : Height)
  | done (bracket : Option HeightRange)
  | failed (missing : MissingHeader)
  deriving DecidableEq

/-- The outcome of evaluating a median from the times that have been supplied. -/
inductive MtpAttempt
  | notYetSupplied (height : Height)
  | hole (height : Height)
  | ready (mtp : BlockTime)
  deriving DecidableEq

/-- The search, with the times that have been supplied in the order of their heights. -/
structure CandidateSearch where
  tip : Height
  low : BlockTime
  high : BlockTime
  drift : MaxBlockTimeDrift
  cache : List (Height × Option BlockTime)
  phase : Phase
  deriving DecidableEq

namespace CandidateSearch

def new (tip : Height) (low high : BlockTime) (drift : MaxBlockTimeDrift) : CandidateSearch :=
  let phase : Phase :=
    if high ≤ low then .done none
    else if tip = .genesis then .genesisOnly
    else .findHigh (.new 1 tip.value)
  ⟨tip, low, high, drift, [], phase⟩

/-- Put an entry in its place, over the one that is there. -/
def insertEntry (height : Height) (time : Option BlockTime) :
    List (Height × Option BlockTime) → List (Height × Option BlockTime)
  | [] => [(height, time)]
  | entry :: rest =>
    if entry.1 = height then (height, time) :: rest
    else if height < entry.1 then (height, time) :: entry :: rest
    else entry :: insertEntry height time rest

/-- Supply the time at a height, or that there is no block. -/
def supply (self : CandidateSearch) (height : Height) (time : Option BlockTime) : CandidateSearch :=
  { self with cache := insertEntry height time self.cache }

def cached (self : CandidateSearch) (height : Height) : Option (Option BlockTime) :=
  self.cache.lookup height

/-- The loop of `mtpOf` over the predecessors. -/
def collect (self : CandidateSearch) : List Nat → List BlockTime → Option Height → MtpAttempt
  | [], times, lastValid =>
    match medianTimePast times with
    | some mtp => .ready mtp
    | none => .hole (lastValid.getD .genesis)
  | pred :: rest, times, lastValid =>
    match Height.tryFrom pred with
    | none => self.collect rest times lastValid
    | some height =>
      match self.cached height with
      | none => .notYetSupplied height
      | some none => .hole height
      | some (some time) => self.collect rest (times ++ [time]) (some height)

/-- Evaluate the median-time-past of a height, or report the first predecessor that is missing. -/
def mtpOf (self : CandidateSearch) (target : Nat) : MtpAttempt :=
  let firstPred := target - medianBlockSpan
  let lastPred := target - 1
  self.collect (List.range' firstPred (lastPred + 1 - firstPred)) [] none

def finalize (self : CandidateSearch) (lowBound highBound : Height) : CandidateSearch :=
  { self with phase := .done (if lowBound ≤ highBound then some ⟨lowBound, highBound⟩ else none) }

/-- Go on from the upper search with its result. -/
def startLowPhase (self : CandidateSearch) : Option Nat → CandidateSearch
  | none => { self with phase := .done none }
  | some high =>
    let highBound := (Height.tryFrom high).getD self.tip
    if Height.genesis < self.drift.enforcedFrom then self.finalize .genesis highBound
    else { self with phase := .findLow (.new 1 high) highBound }

/-- Go on from the lower search with its result. -/
def finishLowPhase (self : CandidateSearch) (lowBest : Option Nat) (highBound : Height) :
    CandidateSearch :=
  match lowBest with
  | none => { self with phase := .done none }
  | some low =>
    let lowBound := if low ≤ 1 then .genesis else (Height.tryFrom low).getD .genesis
    self.finalize lowBound highBound

/-- One turn of polling: the search goes on, or it answers. -/
inductive Turn
  | again (search : CandidateSearch)
  | answer (step : SearchStep)

/-- Continue with a median, or ask for what it lacks, or fail. -/
def withMtp (self : CandidateSearch) (target : Nat) (continuation : BlockTime → CandidateSearch) : Turn :=
  match self.mtpOf target with
  | .notYetSupplied height => .answer (.need height)
  | .hole height => .again { self with phase := .failed ⟨height⟩ }
  | .ready mtp => .again (continuation mtp)

def turn (self : CandidateSearch) : Turn :=
  match self.phase with
  | .done bracket => .answer (.done bracket)
  | .failed missing => .answer (.failed missing)
  | .genesisOnly =>
    match self.cached .genesis with
    | none => .answer (.need .genesis)
    | some none => .again { self with phase := .failed ⟨.genesis⟩ }
    | some (some time) =>
      let bracket := if self.low ≤ time ∧ time < self.high then some ⟨.genesis, .genesis⟩ else none
      .again { self with phase := .done bracket }
  | .findHigh search =>
    if search.finished then .again (self.startLowPhase search.best)
    else
      self.withMtp search.mid fun mtp =>
        { self with phase := .findHigh (search.recordTakeHighest (decide (mtp < self.high))) }
  | .findLow search highBound =>
    if search.finished then .again (self.finishLowPhase search.best highBound)
    else
      self.withMtp search.mid fun mtp =>
        let threshold := self.low - MaxBlockTimeDrift.driftSeconds
        { self with phase := .findLow (search.recordTakeLowest (decide (threshold ≤ mtp))) highBound }

/-- Advance the search as far as the supplied times allow, in at most `fuel` turns. -/
def poll : Nat → CandidateSearch → Option (CandidateSearch × SearchStep)
  | 0, _ => none
  | fuel + 1, self =>
    match self.turn with
    | .again self => self.poll fuel
    | .answer step => some (self, step)

/-- Drive a search over reads that may fail. The result lists the heights that were requested. -/
def drive {ε : Type} (read : Height → Except ε (Option BlockTime)) :
    Nat → CandidateSearch → List Height →
      Option (Except ε (List Height × Except MissingHeader (Option HeightRange)))
  | 0, _, _ => none
  | fuel + 1, self, requested => do
    let (self, step) ← self.poll fuel
    match step with
    | .need height =>
      match read height with
      | .error e => some (.error e)
      | .ok time => drive read fuel (self.supply height time) (requested ++ [height])
    | .done bracket => some (.ok (requested, .ok bracket))
    | .failed missing => some (.ok (requested, .error missing))

end CandidateSearch

end Zaino.Consensus
