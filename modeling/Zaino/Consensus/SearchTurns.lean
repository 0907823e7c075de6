import Zaino.Consensus.BlockTime
import Zaino.Library.Bisection

/-!
# The turns of the candidate search

The median-time-past of a chain, what one turn of polling does, and where the search stands after it. A
turn that goes on is one of the moves of `Advances`; it keeps the two binary searches within the heights
from 1 to the tip and leaves less to do (`Advances.inBounds`). A turn that asks names a height at or below
the tip that has not been supplied (`turn_need`).
-/

namespace Zaino.Consensus

open Library List Height Nat MaxBlockTimeDrift

/-! ## The median-time-past -/

variable {times : List BlockTime}

theorem medianTimePast_of_ne_nil (nonempty : times ≠ []) :
    medianTimePast times = median (times.drop (times.length - medianBlockSpan)) := by
  unfold medianTimePast
  rw [if_neg (by simpa using nonempty)]

theorem exists_medianTimePast (nonempty : times ≠ []) : ∃ mtp, medianTimePast times = some mtp := by
  rw [medianTimePast_of_ne_nil nonempty]
  apply exists_median
  have positive := length_pos_iff.mpr nonempty
  rw [ne_eq, drop_eq_nil_iff, medianBlockSpan]
  omega

/-- Only the last eleven times count. -/
theorem medianTimePast_drop {k : Nat} (far : k ≤ times.length - medianBlockSpan)
    (nonempty : times ≠ []) : medianTimePast (times.drop k) = medianTimePast times := by
  have positive := length_pos_iff.mpr nonempty
  have some_left : times.drop k ≠ [] := by
    rw [ne_eq, drop_eq_nil_iff, medianBlockSpan] at *
    omega
  rw [medianTimePast_of_ne_nil nonempty, medianTimePast_of_ne_nil some_left, drop_drop,
    length_drop]
  congr 2
  omega

/-- One more block, with a time not below the median of the ones before it, does not lower the median. -/
theorem medianTimePast_le {time mtp mtp' : BlockTime} (is_median : medianTimePast times = some mtp)
    (is_median' : medianTimePast (times ++ [time]) = some mtp')
    (not_below : mtp ≤ time) : mtp ≤ mtp' := by
  have nonempty : times ≠ [] := by
    rintro rfl
    cases is_median
  rw [medianTimePast_of_ne_nil nonempty] at is_median
  rw [medianTimePast_of_ne_nil (by simp), length_append, length_singleton,
    drop_append_of_le_length (by rw [medianBlockSpan]; omega)] at is_median'
  refine median_le_median is_median is_median' rfl
    (drop_sublist_drop_left times (by omega)) ?_ ?_
  · intro x member
    rw [mem_singleton.mp member]
    exact not_below
  · rw [length_append, length_drop, length_drop, length_singleton]
    omega

/-- The median-time-past of a height of the chain. -/
def mtpAt (times : List BlockTime) (height : Nat) : BlockTime :=
  (medianTimePast (times.take height)).getD 0

theorem medianTimePast_take {height : Nat} (positive : 0 < height)
    (nonempty : times ≠ []) : medianTimePast (times.take height) = some (mtpAt times height) := by
  have some_taken : times.take height ≠ [] := by
    rw [ne_eq, take_eq_nil_iff]
    exact not_or.mpr ⟨positive.ne', nonempty⟩
  obtain ⟨mtp, median⟩ := exists_medianTimePast some_taken
  rw [mtpAt, median]
  rfl

/-- A chain of block times that keeps the rules: above the median, and from the enforcement height on at
most the drift above it. -/
def KeepsTimeRules (drift : MaxBlockTimeDrift) (times : List BlockTime) : Prop :=
  ∀ height time mtp, times[height]? = some time → medianTimePast (times.take height) = some mtp →
    mtp < time ∧ (drift.enforcedFrom.value ≤ height → time ≤ mtp + driftSeconds)

namespace BinarySearch

/-! ## The binary search -/

/-- The search spans a part of the interval from 1 to `b`, and looks at its middle. -/
structure Within (b : Nat) (search : BinarySearch) : Prop where
  spans : Spans 1 b search.lo search.hi
  mid_eq : search.lo ≤ search.hi → search.mid = middle search.lo search.hi

variable {b : Nat} {search : BinarySearch}

theorem saturatingAdd_of_le {a c : Nat} (fits : a + c ≤ maxHeight + 1) :
    saturatingAdd a c = a + c := by
  unfold saturatingAdd maxHeight at *
  omega

theorem saturatingAdd_half {lo hi : Nat} (left : lo ≤ hi) (bounded : hi ≤ maxHeight) :
    saturatingAdd lo ((hi - lo) / 2) = middle lo hi :=
  saturatingAdd_of_le (by omega)

theorem finished_iff : search.finished = true ↔ search.hi < search.lo := decide_eq_true_iff

theorem Within.new (bounded : b ≤ maxHeight) : Within b (.new 1 b) :=
  ⟨.whole (by omega), fun left => saturatingAdd_half left bounded⟩

/-- What a search is after a move of an end. -/
structure Narrowed (b : Nat) (search : BinarySearch) (lo hi : Nat) (best : Option Nat) : Prop where
  within : Within b search
  lo_eq : search.lo = lo
  hi_eq : search.hi = hi
  best_eq : search.best = best

/-- Looking at the middle again after a move of an end. -/
theorem Within.recomputeMid (bounded : b ≤ maxHeight) (spans : Spans 1 b search.lo search.hi) :
    Narrowed b search.recomputeMid search.lo search.hi search.best := by
  unfold BinarySearch.recomputeMid
  split
  · next is_over =>
    rw [finished_iff] at is_over
    exact ⟨⟨spans, fun left => absurd left (by omega)⟩, rfl, rfl, rfl⟩
  · next on =>
    have le_to := spans.le_to
    exact ⟨⟨spans, fun left => saturatingAdd_half left (by omega)⟩, rfl, rfl, rfl⟩

section Record

variable (bounded : b ≤ maxHeight) (within : Within b search) (unfinished : search.finished = false)

include bounded within unfinished

omit bounded in
theorem Within.mid : search.mid = middle search.lo search.hi ∧ search.lo ≤ search.hi ∧
    1 ≤ search.mid ∧ search.mid ≤ b := by
  have left : search.lo ≤ search.hi := by
    by_contra is_over
    rw [finished_iff.mpr (by omega)] at unfinished
    cases unfinished
  have mid_eq := within.mid_eq left
  have lower := lo_le_middle search.lo search.hi
  have upper := middle_le_hi left
  have from_le := within.spans.from_le
  have le_to := within.spans.le_to
  exact ⟨mid_eq, left, by omega, by omega⟩

/-- The middle and all below it are cut off. -/
theorem Within.raised (best : Option Nat) :
    Narrowed b { search with best, lo := saturatingAdd search.mid 1 }.recomputeMid
      (search.mid + 1) search.hi best := by
  obtain ⟨mid_eq, left, positive, inside⟩ := within.mid unfinished
  rw [saturatingAdd_of_le (show search.mid + 1 ≤ _ by omega)]
  exact Within.recomputeMid bounded (by rw [mid_eq]; exact within.spans.raise left)

/-- The middle and all above it are cut off. -/
theorem Within.lowered (best : Option Nat) : Narrowed b { search with
        best, hi := search.mid - 1
        lo := if search.mid = 0 then saturatingAdd (search.mid - 1) 1 else search.lo }.recomputeMid
      search.lo (search.mid - 1) best := by
  obtain ⟨mid_eq, left, positive, inside⟩ := within.mid unfinished
  rw [if_neg (show search.mid ≠ 0 by omega)]
  exact Within.recomputeMid bounded (by rw [mid_eq]; exact within.spans.lower one_pos left)

theorem recordTakeHighest_holds : Narrowed b (search.recordTakeHighest true) (search.mid + 1)
    search.hi (some search.mid) :=
  within.raised bounded unfinished _

theorem recordTakeHighest_fails : Narrowed b (search.recordTakeHighest false) search.lo
    (search.mid - 1) search.best :=
  within.lowered bounded unfinished _

theorem recordTakeLowest_holds : Narrowed b (search.recordTakeLowest true) search.lo
    (search.mid - 1) (some search.mid) :=
  within.lowered bounded unfinished _

theorem recordTakeLowest_fails : Narrowed b (search.recordTakeLowest false) (search.mid + 1)
    search.hi search.best :=
  within.raised bounded unfinished _

end Record

end BinarySearch

namespace CandidateSearch

/-! ## What has been supplied -/

theorem lookup_cons_eq (entry : Height × Option BlockTime) (rest : List (Height × Option BlockTime))
    (other : Height) :
    (entry :: rest).lookup other = if other = entry.1 then some entry.2 else rest.lookup other := by
  rw [lookup_cons]
  split
  · next same => rw [if_pos (beq_iff_eq.mp same)]
  · next differs => rw [if_neg (beq_eq_false_iff_ne.mp differs)]

theorem lookup_insertEntry (cache : List (Height × Option BlockTime)) (height other : Height)
    (time : Option BlockTime) : (insertEntry height time cache).lookup other =
      if other = height then some time else cache.lookup other := by
  induction cache with
  | nil => exact lookup_cons_eq (height, time) [] other
  | cons entry rest ih =>
    unfold insertEntry
    split
    · next replaced =>
      rw [lookup_cons_eq, lookup_cons_eq, replaced]
      split <;> rfl
    · next kept =>
      split
      · rw [lookup_cons_eq]
      · rw [lookup_cons_eq, lookup_cons_eq, ih]
        by_cases is_entry : other = entry.1
        · have differs : ¬ other = height := fun same => kept (is_entry.symm.trans same)
          rw [if_pos is_entry, if_neg differs, if_pos is_entry]
        · rw [if_neg is_entry, if_neg is_entry]

theorem cached_supply (self : CandidateSearch) (height other : Height) (time : Option BlockTime) :
    (self.supply height time).cached other = if other = height then some time else self.cached other :=
  lookup_insertEntry self.cache height other time

variable {self : CandidateSearch} {preds : List Nat} {times : List BlockTime}
  {lastValid : Option Height}

/-- A height that is asked for has not been supplied; supplied as absent, it is a hole. -/
theorem collect_notYetSupplied {height : Height}
    (asked : self.collect preds times lastValid = .notYetSupplied height) :
    height.value ∈ preds ∧ self.cached height = none ∧
      (self.supply height none).collect preds times lastValid = .hole height := by
  fun_induction collect self preds times lastValid with
  | case1 => cases asked
  | case2 => cases asked
  | case3 pred rest times lastValid converted ih =>
    obtain ⟨member, uncached, holed⟩ := ih asked
    rw [collect, converted]
    exact ⟨mem_cons_of_mem _ member, uncached, holed⟩
  | case4 pred rest times lastValid first converted known =>
    cases asked
    rw [collect, converted]
    simp only [cached_supply, if_pos]
    exact ⟨tryFrom_eq_some.mp converted ▸ mem_cons_self, known, trivial⟩
  | case5 => cases asked
  | case6 pred rest times lastValid first converted time known ih =>
    obtain ⟨member, uncached, holed⟩ := ih asked
    have differs : first ≠ height := by
      rintro rfl
      rw [known] at uncached
      cases uncached
    rw [collect, converted]
    simp only [cached_supply, if_neg differs, known]
    exact ⟨mem_cons_of_mem _ member, uncached, holed⟩

/-- A hole is a predecessor that was supplied as absent. -/
theorem collect_hole {height : Height} (holed : self.collect preds times lastValid = .hole height)
    (some_pred : times ≠ [] ∨ ∃ pred ∈ preds, pred ≤ maxHeight) :
    self.cached height = some none := by
  fun_induction collect self preds times lastValid with
  | case1 => cases holed
  | case2 times lastValid unmedian =>
    have nonempty : times ≠ [] := by simpa using some_pred
    obtain ⟨mtp, median⟩ := exists_medianTimePast nonempty
    rw [median] at unmedian
    cases unmedian
  | case3 pred rest times lastValid converted ih =>
    refine ih holed (some_pred.imp_right ?_)
    rintro ⟨other, member, fits⟩
    rcases mem_cons.mp member with rfl | member
    · rw [tryFrom, dif_pos fits] at converted
      cases converted
    · exact ⟨other, member, fits⟩
  | case4 => cases holed
  | case5 pred rest times lastValid first converted known =>
    cases holed
    exact known
  | case6 pred rest times lastValid first converted time known ih => exact ih holed (.inl (by simp))

/-- A median is the one of the predecessors' times. -/
theorem collect_ready (time : Nat → BlockTime) {mtp : BlockTime}
    (heights : ∀ pred ∈ preds, pred ≤ maxHeight)
    (true_times : ∀ height t, self.cached height = some (some t) → t = time height.value)
    (ready : self.collect preds times lastValid = .ready mtp) :
    medianTimePast (times ++ preds.map time) = some mtp := by
  fun_induction collect self preds times lastValid with
  | case1 times lastValid found median =>
    cases ready
    rw [map_nil, append_nil, median]
  | case2 => cases ready
  | case3 pred rest times lastValid converted ih =>
    rw [tryFrom, dif_pos (heights pred mem_cons_self)] at converted
    cases converted
  | case4 => cases ready
  | case5 => cases ready
  | case6 pred rest times lastValid first converted t known ih =>
    have median := ih (forall_mem_cons.mp heights).2 ready
    rw [append_assoc, singleton_append] at median
    rwa [map_cons, ← tryFrom_eq_some.mp converted, ← true_times _ t known]

section MtpOf

variable {self : CandidateSearch} {target : Nat} (positive : 0 < target)

include positive

theorem mem_preds {pred : Nat} :
    pred ∈ List.range' (target - medianBlockSpan) (target - 1 + 1 - (target - medianBlockSpan)) ↔
      target - medianBlockSpan ≤ pred ∧ pred < target := by
  rw [mem_range'_1, medianBlockSpan]
  omega

theorem mtpOf_notYetSupplied {height : Height}
    (asked : self.mtpOf target = .notYetSupplied height) :
    height.value < target ∧ self.cached height = none ∧
      (self.supply height none).mtpOf target = .hole height := by
  obtain ⟨member, uncached, holed⟩ := collect_notYetSupplied asked
  exact ⟨((mem_preds positive).mp member).2, uncached, holed⟩

theorem mtpOf_hole {height : Height} (bounded : target ≤ maxHeight)
    (holed : self.mtpOf target = .hole height) : self.cached height = some none := by
  refine collect_hole holed (.inr ⟨target - 1, (mem_preds positive).mpr ?_, by omega⟩)
  rw [medianBlockSpan]
  omega

theorem mtpOf_ready {times : List BlockTime} {mtp : BlockTime}
    (bounded : target ≤ maxHeight) (inside : target ≤ times.length)
    (true_times : ∀ height t, self.cached height = some (some t) → times[height.value]? = some t)
    (ready : self.mtpOf target = .ready mtp) : mtp = mtpAt times target := by
  have nonempty : times ≠ [] := length_pos_iff.mp (by omega)
  have median := collect_ready (fun pred => times.getD pred 0)
    (fun pred member => by have := (mem_preds positive).mp member; omega)
    (fun height t known => by rw [getD_eq_getElem?_getD, true_times height t known]; rfl) ready
  have window : (List.range' (target - medianBlockSpan)
      (target - 1 + 1 - (target - medianBlockSpan))).map (fun pred => times.getD pred 0) =
      (times.take target).drop (target - medianBlockSpan) := by
    apply ext_getElem
    · rw [length_map, length_range', length_drop, length_take_of_le inside]
      omega
    · intro i in_range in_window
      rw [length_drop, length_take_of_le inside] at in_window
      rw [getElem_map, getElem_range', one_mul, getElem_drop, getElem_take,
        getD_eq_getElem?_getD, getElem?_eq_getElem (by omega), Option.getD_some]
  have length_taken : (times.take target).length = target := length_take_of_le inside
  rw [nil_append, window, medianTimePast_drop (by rw [length_taken])
    (length_pos_iff.mp (by omega)), medianTimePast_take positive nonempty] at median
  exact (Option.some.inj median).symm

end MtpOf

/-! ## One turn -/

/-- Where the phases may stand: within the heights from 1 to the tip, with the best height so far next to
what is left. -/
def InBounds (self : CandidateSearch) : Prop :=
  match self.phase with
  | .genesisOnly => self.tip = .genesis
  | .findHigh search =>
    1 ≤ self.tip.value ∧ search.Within self.tip.value ∧
      search.best = if search.lo = 1 then none else some (search.lo - 1)
  | .findLow search highBound =>
    highBound ≤ self.tip ∧ 1 ≤ highBound.value ∧ search.Within highBound.value ∧
      search.best = if search.hi = highBound.value then none else some (search.hi + 1)
  | .done bracket => ∀ range, bracket = some range → range.start ≤ range.stop ∧ range.stop ≤ self.tip
  | .failed _ => True

/-- How many turns the search has left at most, besides the one that answers. -/
def remaining (self : CandidateSearch) : Nat :=
  match self.phase with
  | .genesisOnly => 1
  | .findHigh search => (search.hi + 1 - search.lo) + self.tip.value + 2
  | .findLow search _ => (search.hi + 1 - search.lo) + 1
  | .done _ => 0
  | .failed _ => 0

variable {self next : CandidateSearch}

variable {target : Nat} {continuation : BlockTime → CandidateSearch} {step : SearchStep}
  {height : Height} {missing : MissingHeader}

theorem withMtp_eq_again (again : self.withMtp target continuation = .again next) :
    (∃ height, self.mtpOf target = .hole height ∧ next = { self with phase := .failed ⟨height⟩ }) ∨
      ∃ mtp, self.mtpOf target = .ready mtp ∧ next = continuation mtp := by
  unfold withMtp at again
  split at again
  · cases again
  · next height holed =>
    cases again
    exact .inl ⟨height, holed, rfl⟩
  · next mtp ready =>
    cases again
    exact .inr ⟨mtp, ready, rfl⟩

theorem withMtp_eq_answer (answered : self.withMtp target continuation = .answer step) :
    ∃ height, self.mtpOf target = .notYetSupplied height ∧ step = .need height := by
  unfold withMtp at answered
  split at answered
  · next height asked =>
    cases answered
    exact ⟨height, asked, rfl⟩
  · cases answered
  · cases answered

/-- A predecessor that is asked for, and then supplied as absent, fails the search. -/
theorem withMtp_need (positive : 0 < target)
    (asks : self.withMtp target continuation = .answer (.need height)) :
    height.value < target ∧ self.cached height = none ∧
      ∀ continuation', (self.supply height none).withMtp target continuation' =
        .again { self.supply height none with phase := .failed ⟨height⟩ } := by
  obtain ⟨_, asked, is_need⟩ := withMtp_eq_answer asks
  cases is_need
  obtain ⟨below, uncached, holed⟩ := mtpOf_notYetSupplied positive asked
  refine ⟨below, uncached, ?_⟩
  intro continuation'
  rw [withMtp, holed]

/-- What a turn that goes on has done, by the phase it was in. -/
inductive Advances (self : CandidateSearch) : Phase → Prop
  | hole {height : Height} : 0 < self.remaining → self.cached height = some none →
      Advances self (.failed ⟨height⟩)
  | genesis {time : BlockTime} : self.phase = .genesisOnly → self.cached .genesis = some (some time) →
      Advances self
        (.done (if self.low ≤ time ∧ time < self.high then some ⟨.genesis, .genesis⟩ else none))
  | high {search : BinarySearch} {mtp : BlockTime} : self.phase = .findHigh search →
      search.finished = false → self.mtpOf search.mid = .ready mtp →
      Advances self (.findHigh (search.recordTakeHighest (decide (mtp < self.high))))
  | highest {search : BinarySearch} : self.phase = .findHigh search → search.finished = true →
      Advances self (self.startLowPhase search.best).phase
  | low {search : BinarySearch} {highBound : Height} {mtp : BlockTime} :
      self.phase = .findLow search highBound → search.finished = false →
      self.mtpOf search.mid = .ready mtp →
      Advances self (.findLow
        (search.recordTakeLowest (decide (self.low - driftSeconds ≤ mtp))) highBound)
  | lowest {search : BinarySearch} {highBound : Height} : self.phase = .findLow search highBound →
      search.finished = true → Advances self (self.finishLowPhase search.best highBound).phase

theorem turn_of_failed (failed : self.phase = .failed missing) :
    self.turn = .answer (.failed missing) := by
  rw [turn, failed]

theorem startLowPhase_frame (self : CandidateSearch) (best : Option Nat) :
    self.startLowPhase best = { self with phase := (self.startLowPhase best).phase } := by
  unfold startLowPhase finalize
  split
  · rfl
  · split <;> rfl

theorem finishLowPhase_frame (self : CandidateSearch) (best : Option Nat) (highBound : Height) :
    self.finishLowPhase best highBound =
      { self with phase := (self.finishLowPhase best highBound).phase } := by
  unfold finishLowPhase finalize
  split <;> rfl

/-- A turn that goes on changes the phase only, in one of the ways above. -/
theorem turn_again (inBounds : self.InBounds) (again : self.turn = .again next) :
    next = { self with phase := next.phase } ∧ self.Advances next.phase := by
  unfold InBounds at inBounds
  unfold turn at again
  have tip_bounded := self.tip.bounded
  split at again
  · cases again
  · cases again
  · next alone =>
    split at again
    · cases again
    · next absent =>
      cases again
      exact ⟨rfl, .hole (by rw [remaining, alone]; exact one_pos) absent⟩
    · next time known =>
      cases again
      exact ⟨rfl, .genesis alone known⟩
  · next search searching =>
    rw [searching] at inBounds
    obtain ⟨-, within, -⟩ := inBounds
    split at again
    · next is_over =>
      cases again
      exact ⟨startLowPhase_frame _ _, .highest searching is_over⟩
    · next on =>
      have on := Bool.eq_false_of_not_eq_true on
      obtain ⟨-, -, positive, inside⟩ := within.mid on
      rcases withMtp_eq_again again with ⟨height, holed, rfl⟩ | ⟨mtp, ready, rfl⟩
      · have more : 0 < self.remaining := by
          rw [remaining, searching]
          exact succ_pos _
        exact ⟨rfl, .hole more (mtpOf_hole positive (by omega) holed)⟩
      · exact ⟨rfl, .high searching on ready⟩
  · next search highBound searching =>
    rw [searching] at inBounds
    obtain ⟨-, -, within, -⟩ := inBounds
    have bound_bounded := highBound.bounded
    split at again
    · next is_over =>
      cases again
      exact ⟨finishLowPhase_frame _ _ _, .lowest searching is_over⟩
    · next on =>
      have on := Bool.eq_false_of_not_eq_true on
      obtain ⟨-, -, positive, inside⟩ := within.mid on
      rcases withMtp_eq_again again with ⟨height, holed, rfl⟩ | ⟨mtp, ready, rfl⟩
      · have more : 0 < self.remaining := by
          rw [remaining, searching]
          exact succ_pos _
        exact ⟨rfl, .hole more (mtpOf_hole positive (by omega) holed)⟩
      · exact ⟨rfl, .low searching on ready⟩

/-- The times that a search needs are at or below its tip and have not been supplied; an absent answer
fails the search. -/
theorem turn_need (inBounds : self.InBounds) (asks : self.turn = .answer (.need height)) :
    height ≤ self.tip ∧ self.cached height = none ∧ (self.supply height none).turn =
        .again { self.supply height none with phase := .failed ⟨height⟩ } := by
  unfold InBounds at inBounds
  unfold turn at asks
  split at asks
  · cases asks
  · cases asks
  · next alone =>
    split at asks
    · next uncached =>
      cases asks
      refine ⟨Nat.zero_le _, uncached, ?_⟩
      have absent : (self.supply .genesis none).cached .genesis = some none := by
        rw [cached_supply, if_pos rfl]
      unfold turn
      rw [show (self.supply .genesis none).phase = .genesisOnly from alone]
      rw [absent]
    · cases asks
    · cases asks
  · next search searching =>
    rw [searching] at inBounds
    obtain ⟨-, within, -⟩ := inBounds
    split at asks
    · cases asks
    · next on =>
      obtain ⟨-, -, positive, inside⟩ := within.mid (Bool.eq_false_of_not_eq_true on)
      obtain ⟨below, uncached, fails⟩ := withMtp_need positive asks
      refine ⟨le_def.mpr (by omega), uncached, ?_⟩
      unfold turn
      rw [show (self.supply height none).phase = .findHigh search from searching]
      dsimp only
      rw [if_neg on]
      exact fails _
  · next search highBound searching =>
    rw [searching] at inBounds
    obtain ⟨below_tip, -, within, -⟩ := inBounds
    split at asks
    · cases asks
    · next on =>
      obtain ⟨-, -, positive, inside⟩ := within.mid (Bool.eq_false_of_not_eq_true on)
      obtain ⟨below, uncached, fails⟩ := withMtp_need positive asks
      have below_tip := le_def.mp below_tip
      refine ⟨le_def.mpr (by omega), uncached, ?_⟩
      unfold turn
      rw [show (self.supply height none).phase = .findLow search highBound from searching]
      dsimp only
      rw [if_neg on]
      exact fails _

/-- Answers other than a request are those of the two last phases. -/
theorem turn_answer (answered : self.turn = .answer step) :
    (∃ height, step = .need height) ∨ (∃ bracket, step = .done bracket ∧ self.phase = .done bracket) ∨
      ∃ missing, step = .failed missing ∧ self.phase = .failed missing := by
  unfold turn at answered
  split at answered
  · next bracket finished =>
    cases answered
    exact .inr (.inl ⟨bracket, rfl, finished⟩)
  · next missing finished =>
    cases answered
    exact .inr (.inr ⟨missing, rfl, finished⟩)
  · split at answered
    · cases answered
      exact .inl ⟨_, rfl⟩
    · cases answered
    · cases answered
  · split at answered
    · cases answered
    · obtain ⟨height, -, is_need⟩ := withMtp_eq_answer answered
      exact .inl ⟨height, is_need⟩
  · split at answered
    · cases answered
    · obtain ⟨height, -, is_need⟩ := withMtp_eq_answer answered
      exact .inl ⟨height, is_need⟩

/-- The search fails on a height that was supplied as absent. -/
theorem Advances.cached_of_failed (advances : self.Advances (.failed missing)) :
    self.cached missing.height = some none := by
  generalize is_phase : Phase.failed missing = phase at advances
  cases advances with
  | hole _ absent =>
    cases is_phase
    exact absent
  | genesis => cases is_phase
  | high => cases is_phase
  | @highest search _ _ =>
    unfold startLowPhase finalize at is_phase
    generalize search.best = best at is_phase
    cases best with
    | none => cases is_phase
    | some high =>
      dsimp only at is_phase
      split at is_phase
      · cases is_phase
      · cases is_phase
  | low => cases is_phase
  | @lowest search _ _ _ =>
    generalize search.best = best at is_phase
    cases best with
    | none => cases is_phase
    | some low => cases is_phase

theorem inBounds_finalize {lowBound highBound : Height} (below_tip : highBound ≤ self.tip) :
    (self.finalize lowBound highBound).InBounds := by
  intro range is_range
  split at is_range
  · next ordered =>
    cases is_range
    exact ⟨ordered, below_tip⟩
  · cases is_range

/-- A search that is over has crossed its ends by one. -/
theorem lo_of_finished {search : BinarySearch} {b : Nat} (within : search.Within b)
    (is_over : search.finished = true) : search.lo = search.hi + 1 := by
  have meet := within.spans.meet
  have crossed := BinarySearch.finished_iff.mp is_over
  omega

/-- Every turn keeps within the bounds and leaves less to do. -/
theorem Advances.inBounds {phase : Phase} (inBounds : self.InBounds) (advances : self.Advances phase) :
    InBounds { self with phase } ∧ remaining { self with phase } < self.remaining := by
  unfold InBounds at inBounds
  have tip_bounded := self.tip.bounded
  cases advances with
  | hole more absent => exact ⟨trivial, more⟩
  | genesis alone known =>
    constructor
    · intro range is_range
      split at is_range
      · cases is_range
        exact ⟨Nat.le_refl _, Nat.zero_le _⟩
      · cases is_range
    · rw [remaining, remaining, alone]
      exact one_pos
  | @high search mtp searching on ready =>
    rw [searching] at inBounds
    obtain ⟨above_genesis, within, best_eq⟩ := inBounds
    obtain ⟨mid_eq, left, positive, inside⟩ := within.mid on
    have lower := lo_le_middle search.lo search.hi
    have upper := middle_le_hi left
    rw [remaining, remaining, searching]
    cases decide (mtp < self.high) with
    | true =>
      obtain ⟨within', lo_eq, hi_eq, best'⟩ := search.recordTakeHighest_holds tip_bounded within on
      refine ⟨⟨above_genesis, within', ?_⟩, ?_⟩
      · rw [best', lo_eq, if_neg (by omega), Nat.add_sub_cancel]
      · dsimp only
        omega
    | false =>
      obtain ⟨within', lo_eq, hi_eq, best'⟩ := search.recordTakeHighest_fails tip_bounded within on
      refine ⟨⟨above_genesis, within', ?_⟩, ?_⟩
      · rw [best', lo_eq, best_eq]
      · dsimp only
        rw [lo_eq, hi_eq]
        omega
  | @highest search searching is_over =>
    rw [searching] at inBounds
    obtain ⟨-, within, best_eq⟩ := inBounds
    have ends := lo_of_finished within is_over
    have inside := within.spans.le_to
    rw [best_eq]
    split
    · refine ⟨nofun, ?_⟩
      rw [remaining, remaining, searching]
      exact succ_pos _
    · next found =>
      have fits : search.lo - 1 ≤ maxHeight := by omega
      unfold startLowPhase
      dsimp only
      rw [tryFrom, dif_pos fits, Option.getD_some]
      split
      · refine ⟨inBounds_finalize (le_def.mpr (by dsimp only; omega)), ?_⟩
        rw [remaining, remaining, searching]
        exact succ_pos _
      · refine ⟨⟨le_def.mpr (by dsimp only; omega), by dsimp only; omega, .new fits, ?_⟩, ?_⟩
        · exact (if_pos rfl).symm
        · rw [remaining, remaining, searching]
          dsimp only [BinarySearch.new]
          omega
  | @low search highBound mtp searching on ready =>
    rw [searching] at inBounds
    obtain ⟨below_tip, nonzero, within, best_eq⟩ := inBounds
    obtain ⟨mid_eq, left, positive, inside⟩ := within.mid on
    have lower := lo_le_middle search.lo search.hi
    have upper := middle_le_hi left
    rw [remaining, remaining, searching]
    cases decide (self.low - driftSeconds ≤ mtp) with
    | true =>
      obtain ⟨within', lo_eq, hi_eq, best'⟩ :=
        search.recordTakeLowest_holds highBound.bounded within on
      refine ⟨⟨below_tip, nonzero, within', ?_⟩, ?_⟩
      · rw [best', hi_eq, if_neg (by omega), Nat.sub_add_cancel positive]
      · dsimp only
        omega
    | false =>
      obtain ⟨within', lo_eq, hi_eq, best'⟩ :=
        search.recordTakeLowest_fails highBound.bounded within on
      refine ⟨⟨below_tip, nonzero, within', ?_⟩, ?_⟩
      · rw [best', hi_eq, best_eq]
      · dsimp only
        rw [lo_eq, hi_eq]
        omega
  | @lowest search highBound searching is_over =>
    rw [searching] at inBounds
    obtain ⟨below_tip, -, -, -⟩ := inBounds
    constructor
    · cases search.best with
      | none => exact nofun
      | some low => exact inBounds_finalize below_tip
    · have last : remaining { self with phase := (self.finishLowPhase search.best highBound).phase } = 0 := by
        cases search.best <;> rfl
      rw [last, remaining, searching]
      exact succ_pos _

end CandidateSearch

end Zaino.Consensus
