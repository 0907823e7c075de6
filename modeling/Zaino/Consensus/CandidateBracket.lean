import Zaino.Consensus.SearchTurns

/-!
# The candidate bracket is complete

A driven search takes steps: it turns over what it knows, or it asks for a height and is given the answer
(`Step`). Whatever the answers are, it ends, asks for every height at most once and for none above the tip,
and fails exactly on an absent answer (`drive_reaches`, `Asked.step`).

On a chain that keeps the time rules, the median-time-past does not fall with the height
(`mtpAt_mono`). Each of the two binary searches then cuts off only heights that the rules exclude, and the
bracket that is left contains every block in the range (`Tracks.advance`).
-/

namespace Zaino.Consensus.CandidateSearch

open Library List Nat Height MaxBlockTimeDrift Option

/-! ## The steps of a driven search -/

/-- One step of a search driven with the given answers, beside the heights requested so far. -/
inductive Step (answers : Height → Option BlockTime) :
    CandidateSearch × List Height → CandidateSearch × List Height → Prop
  | turn {self next : CandidateSearch} {requested : List Height} : self.turn = .again next →
      Step answers (self, requested) (next, requested)
  | ask {self : CandidateSearch} {requested : List Height} {height : Height} :
      self.turn = .answer (.need height) →
      Step answers (self, requested) (self.supply height (answers height), requested ++ [height])

/-- What holds of a search that was started as `start` and has made the listed requests. -/
structure Asked (answers : Height → Option BlockTime) (start state : CandidateSearch)
    (requested : List Height) : Prop where
  frame : state = { start with cache := state.cache, phase := state.phase }
  cached_eq : ∀ height, state.cached height = if height ∈ requested then some (answers height) else none
  nodup : requested.Nodup
  at_most_tip : ∀ height ∈ requested, height ≤ start.tip
  inBounds : state.InBounds
  /-- A failure names a request that was answered as absent. -/
  failed : ∀ missing, state.phase = .failed missing →
    missing.height ∈ requested ∧ answers missing.height = none
  /-- A request that was answered as absent has failed the search, or does so in the next turn. -/
  absent : ∀ height ∈ requested, answers height = none →
    state.phase = .failed ⟨height⟩ ∨ state.turn = .again { state with phase := .failed ⟨height⟩ }

namespace Asked

variable {answers : Height → Option BlockTime} {start self next : CandidateSearch}
  {requested requested' : List Height}

variable (asked : Asked answers start self requested)

include asked

theorem tip_eq : self.tip = start.tip := by
  rw [asked.frame]

theorem step (step : Step answers (self, requested) (next, requested')) :
    Asked answers start next requested' := by
  cases step with
  | turn again =>
    obtain ⟨next_frame, advances⟩ := turn_again asked.inBounds again
    have cache_eq : next.cache = self.cache := by rw [next_frame]
    have cached_same : ∀ height, next.cached height = self.cached height := by
      intro height
      rw [cached, cached, cache_eq]
    refine ⟨?_, ?_, asked.nodup, asked.at_most_tip, ?_, ?_, ?_⟩
    · rw [next_frame, asked.frame]
    · intro height
      rw [cached_same, asked.cached_eq]
    · rw [next_frame]
      exact (advances.inBounds asked.inBounds).1
    · intro missing failed
      rw [failed] at advances
      have absent := Advances.cached_of_failed advances
      rw [asked.cached_eq] at absent
      split at absent
      · next member => exact ⟨member, some.inj absent⟩
      · cases absent
    · intro height member none_there
      rcases asked.absent height member none_there with failed | fails
      · rw [turn_of_failed failed] at again
        cases again
      · rw [fails] at again
        cases again
        exact .inl rfl
  | @ask _ _ height asks =>
    obtain ⟨at_most, uncached, fails⟩ := turn_need asked.inBounds asks
    have fresh : height ∉ requested := by
      intro member
      rw [asked.cached_eq, if_pos member] at uncached
      cases uncached
    have present : ∀ other ∈ requested, answers other ≠ none := by
      intro other member none_there
      rcases asked.absent other member none_there with failed | again
      · rw [turn_of_failed failed] at asks
        cases asks
      · rw [again] at asks
        cases asks
    refine ⟨?_, ?_, ?_, ?_, asked.inBounds, fun missing failed => ?_, ?_⟩
    · exact congrArg (fun search : CandidateSearch =>
        { search with cache := insertEntry height (answers height) self.cache }) asked.frame
    · intro other
      rw [cached_supply]
      by_cases same : other = height
      · rw [if_pos same, if_pos (by simp [same]), same]
      · rw [if_neg same, asked.cached_eq]
        simp only [mem_append, mem_singleton, same, or_false]
    · rw [nodup_append]
      refine ⟨asked.nodup, nodup_singleton height, ?_⟩
      intro other member last is_last same
      rw [mem_singleton.mp is_last] at same
      exact fresh (same ▸ member)
    · intro other member
      rcases mem_append.mp member with member | member
      · exact asked.at_most_tip other member
      · rw [mem_singleton.mp member, ← asked.tip_eq]
        exact at_most
    · have already : self.phase = .failed missing := failed
      rw [turn_of_failed already] at asks
      cases asks
    · intro other member none_there
      rcases mem_append.mp member with member | member
      · exact absurd none_there (present other member)
      · rw [mem_singleton.mp member] at none_there ⊢
        rw [none_there]
        exact .inr fails

theorem steps (steps : Relation.ReflTransGen (Step answers) (self, requested) (next, requested')) :
    Asked answers start next requested' := by
  generalize is_last : (next, requested') = last at steps
  induction steps generalizing next requested' with
  | refl =>
    cases is_last
    exact asked
  | @tail middle last _ one ih =>
    cases is_last
    exact (ih rfl).step one

/-- No more heights are requested than there are up to the tip. -/
theorem length_le : requested.length ≤ start.tip.value + 1 := by
  have distinct : (requested.map value).Nodup :=
    asked.nodup.map fun _ _ => ext
  have within : (requested.map value) ⊆ List.range (start.tip.value + 1) := by
    intro value member
    obtain ⟨height, requested_there, rfl⟩ := mem_map.mp member
    exact mem_range.mpr (lt_succ_of_le (asked.at_most_tip height requested_there))
  have shorter := (subperm_of_subset distinct within).length_le
  rwa [length_map, length_range] at shorter

theorem poll_reaches (fuel : Nat) (enough : self.remaining < fuel) :
    ∃ next step, self.poll fuel = some (next, step) ∧ next.turn = .answer step ∧
      next.remaining ≤ self.remaining ∧
      Relation.ReflTransGen (Step answers) (self, requested) (next, requested) := by
  induction fuel generalizing self with
  | zero => exact absurd enough (not_lt_zero _)
  | succ fuel ih =>
    rw [poll]
    cases turned : self.turn with
    | answer step => exact ⟨self, step, rfl, turned, Nat.le_refl _, .refl⟩
    | again next =>
      obtain ⟨frame, advances⟩ := turn_again asked.inBounds turned
      have less : next.remaining < self.remaining := by
        rw [frame]
        exact (advances.inBounds asked.inBounds).2
      have one : Step answers (self, requested) (next, requested) := .turn turned
      obtain ⟨last, step, polled, answered, le, reaches⟩ := ih (asked.step one) (by omega)
      exact ⟨last, step, polled, answered, by omega, .head one reaches⟩

end Asked

/-- Enough fuel for every search up to the tip. -/
def driveFuel (tip : Height) : Nat := 3 * tip.value + 5

/-- The outcome of a search that has ended, by its phase. -/
def Ends (self : CandidateSearch) : Except MissingHeader (Option HeightRange) → Prop
  | .ok bracket => self.phase = .done bracket
  | .error missing => self.phase = .failed missing

/-- Every driven search ends, as long as the reads up to its tip succeed. -/
theorem drive_reaches {ε : Type} {read : Height → Except ε (Option BlockTime)}
    {answers : Height → Option BlockTime} {start self : CandidateSearch} {requested : List Height}
    (reads : ∀ height ≤ start.tip, read height = .ok (answers height))
    (asked : Asked answers start self requested) {fuel : Nat}
    (enough : self.remaining + (start.tip.value + 1 - requested.length) + 1 < fuel) :
    ∃ last requested' outcome,
      self.drive read fuel requested = some (.ok (requested', outcome)) ∧ last.Ends outcome ∧
      Relation.ReflTransGen (Step answers) (self, requested) (last, requested') := by
  induction fuel generalizing self requested with
  | zero => exact absurd enough (not_lt_zero _)
  | succ fuel ih =>
    obtain ⟨next, step, polled, answered, le, reaches⟩ := asked.poll_reaches fuel (by omega)
    have asked_next := asked.steps reaches
    rw [drive, polled, bind_eq_bind, bind_some]
    rcases turn_answer answered with ⟨height, rfl⟩ | ⟨bracket, rfl, done⟩ | ⟨missing, rfl, failed⟩
    · have one : Step answers (next, requested)
          (next.supply height (answers height), requested ++ [height]) := .ask answered
      have asked_again := asked_next.step one
      have in_range : height ≤ start.tip :=
        asked_again.at_most_tip height (mem_append_right _ (mem_singleton_self _))
      have room := asked_again.length_le
      rw [length_append, length_singleton] at room
      have same_work : (next.supply height (answers height)).remaining = next.remaining := rfl
      obtain ⟨last, requested', outcome, driven, ends, onwards⟩ := ih asked_again (by
        rw [same_work, length_append, length_singleton]
        omega)
      refine ⟨last, requested', outcome, ?_, ends, reaches.trans (.head one onwards)⟩
      dsimp only
      rw [reads height in_range]
      exact driven
    · exact ⟨next, requested, .ok bracket, rfl, done, reaches⟩
    · exact ⟨next, requested, .error missing, rfl, failed, reaches⟩

section New

variable (answers : Height → Option BlockTime) (tip : Height) (low high : BlockTime)
  (drift : MaxBlockTimeDrift)

theorem inBounds_new : (new tip low high drift).InBounds := by
  unfold InBounds new
  by_cases empty : high ≤ low
  · rw [if_pos empty]
    exact nofun
  · rw [if_neg empty]
    by_cases alone : tip = .genesis
    · rw [if_pos alone]
      exact alone
    · rw [if_neg alone]
      have positive : 1 ≤ tip.value := one_le_iff_ne_zero.mpr fun zero => alone (ext zero)
      exact ⟨positive, .new tip.bounded, rfl⟩

theorem phase_new : ∀ missing, (new tip low high drift).phase ≠ .failed missing := by
  intro missing failed
  unfold new at failed
  split at failed
  · cases failed
  · split at failed
    · cases failed
    · cases failed

theorem remaining_new : (new tip low high drift).remaining ≤ 2 * tip.value + 2 := by
  unfold remaining new
  by_cases empty : high ≤ low
  · rw [if_pos empty]
    exact zero_le _
  · rw [if_neg empty]
    by_cases alone : tip = .genesis
    · rw [if_pos alone]
      dsimp only
      omega
    · rw [if_neg alone]
      dsimp only [BinarySearch.new]
      omega

theorem asked_new : Asked answers (new tip low high drift) (new tip low high drift) [] where
  frame := rfl
  cached_eq _ := rfl
  nodup := nodup_nil
  at_most_tip _ member := absurd member not_mem_nil
  inBounds := inBounds_new tip low high drift
  failed missing failed := absurd failed (phase_new tip low high drift missing)
  absent _ member := absurd member not_mem_nil

end New

/-! ## The heights that the rules exclude -/

theorem mtpAt_one {times : List BlockTime} {time : BlockTime} (genesis : times[0]? = some time) :
    mtpAt times 1 = time := by
  cases times with
  | nil => cases genesis
  | cons first rest =>
    cases genesis
    simp [mtpAt, medianTimePast, median, medianBlockSpan]

section Rules

variable {drift : MaxBlockTimeDrift} {times : List BlockTime} (rules : KeepsTimeRules drift times)

include rules

variable {height bound : Nat} {time : BlockTime}

theorem mtpAt_lt (positive : 0 < height) (is_time : times[height]? = some time) :
    mtpAt times height < time := by
  have inside := (List.getElem?_eq_some_iff.mp is_time).1
  have nonempty : times ≠ [] := List.length_pos_iff.mp (by omega)
  exact (rules height time _ is_time (medianTimePast_take positive nonempty)).1

theorem le_mtpAt_add (positive : 0 < height) (enforced : drift.enforcedFrom.value ≤ height)
    (is_time : times[height]? = some time) :
    time ≤ mtpAt times height + driftSeconds := by
  have inside := (List.getElem?_eq_some_iff.mp is_time).1
  have nonempty : times ≠ [] := List.length_pos_iff.mp (by omega)
  exact (rules height time _ is_time (medianTimePast_take positive nonempty)).2 enforced

/-- The median-time-past does not fall with the height. -/
theorem mtpAt_mono {height' : Nat} (positive : 0 < height) (le : height ≤ height')
    (inside : height' ≤ times.length) : mtpAt times height ≤ mtpAt times height' := by
  induction height', le using le_induction with
  | base => exact Nat.le_refl _
  | succ last le ih =>
    have nonempty : times ≠ [] := length_pos_iff.mp (by omega)
    have is_time : times[last]? = some times[last] := getElem?_eq_getElem inside
    have longer : times.take (last + 1) = times.take last ++ [times[last]] :=
      (take_append_getElem inside).symm
    have is_median : medianTimePast (times.take (last + 1)) = some (mtpAt times (last + 1)) :=
      medianTimePast_take (succ_pos _) nonempty
    rw [longer] at is_median
    have one_more := medianTimePast_le (medianTimePast_take (by omega) nonempty) is_median
      (mtpAt_lt rules (by omega) is_time).le
    exact (ih (by omega)).trans one_more

/-- A block whose median is too high is too late. -/
theorem excluded_above {tip : Nat} {high : BlockTime}
    (tall : ∀ height, bound < height → height ≤ tip → high ≤ mtpAt times height)
    (is_time : times[height]? = some time) (at_most : height ≤ tip) (above : bound < height) :
    high ≤ time :=
  (tall height above at_most).trans (mtpAt_lt rules (by omega) is_time).le

/-- A block whose median is too low is too early, once the drift is enforced from genesis on. The time of
the genesis block is the median of the next. -/
theorem excluded_below {low : BlockTime} (from_genesis : drift.enforcedFrom = .genesis)
    (small : ∀ height, 1 ≤ height → height < bound →
      mtpAt times height < low - driftSeconds) (above_one : 1 < bound)
    (is_time : times[height]? = some time) (below : height < bound) : time < low := by
  rcases Nat.eq_zero_or_pos height with rfl | positive
  · have first := small 1 (Nat.le_refl _) above_one
    rw [mtpAt_one is_time] at first
    exact lt_of_lt_of_le first (sub_le _ _)
  · have enforced : drift.enforcedFrom.value ≤ height := by
      rw [from_genesis]
      exact zero_le _
    have at_most := le_mtpAt_add rules positive enforced is_time
    have under := small height positive below
    exact Nat.lt_of_le_of_lt at_most (add_lt_of_lt_sub under)

end Rules

/-! ## What the search has excluded -/

/-- What the phase knows about the chain: the heights that were cut off are excluded by the rules. -/
def Tracks (times : List BlockTime) (self : CandidateSearch) : Prop :=
  match self.phase with
  | .genesisOnly => True
  | .findHigh search => Bisects (mtpAt times · < self.high) 1 self.tip.value search.lo search.hi
  | .findLow search highBound =>
    self.drift.enforcedFrom = .genesis ∧
      (∀ height, highBound.value < height → height ≤ self.tip.value → self.high ≤ mtpAt times height) ∧
      Bisects (mtpAt times · < self.low - driftSeconds) 1 highBound.value
        search.lo search.hi
  | .done bracket =>
    ∀ height ≤ self.tip, ∀ time, times[height.value]? = some time → self.low ≤ time → time < self.high →
      ∃ range, bracket = some range ∧ covers range height = true
  | .failed _ => True

variable {times : List BlockTime} {self : CandidateSearch}

/-- A bracket that leaves out only what is excluded from above and from below. -/
theorem tracks_finalize {lowBound highBound : Height} (ordered : lowBound ≤ highBound)
    (above : ∀ height time, times[height]? = some time → height ≤ self.tip.value →
      highBound.value < height → self.high ≤ time)
    (below : ∀ height time, times[height]? = some time → height < lowBound.value → time < self.low) :
    Tracks times (self.finalize lowBound highBound) := by
  intro height at_most time is_time low_le lt_high
  refine ⟨⟨lowBound, highBound⟩, if_pos ordered, covers_eq_true.mpr ⟨?_, ?_⟩⟩
  · by_contra outside
    exact absurd (below _ time is_time (Nat.lt_of_not_le outside)) (Nat.not_lt_of_le low_le)
  · by_contra outside
    exact absurd (above _ time is_time at_most (Nat.lt_of_not_le outside)) (Nat.not_le_of_lt lt_high)

theorem Tracks.advance {phase : Phase} (rules : KeepsTimeRules self.drift times)
    (inside : self.tip.value < times.length)
    (true_times : ∀ height t, self.cached height = some (some t) → times[height.value]? = some t)
    (inBounds : self.InBounds) (tracks : Tracks times self) (advances : self.Advances phase) :
    Tracks times { self with phase } := by
  unfold InBounds at inBounds
  unfold Tracks at tracks
  have tip_bounded := self.tip.bounded
  -- A median below a bound is below it at every lower height.
  have closed : ∀ bound b, b ≤ self.tip.value → ∀ m n, 1 ≤ m → m ≤ n → n ≤ b →
      mtpAt times n < bound → mtpAt times m < bound := by
    intro bound b at_most m n positive le to_b below
    exact lt_of_le_of_lt (mtpAt_mono rules positive le (by omega)) below
  cases advances with
  | hole => trivial
  | @genesis time alone known =>
    rw [alone] at inBounds
    intro height at_most time' is_time low_le lt_high
    have is_genesis : height = .genesis := by
      rw [inBounds] at at_most
      exact ext (Nat.le_zero.mp at_most)
    rw [is_genesis] at is_time ⊢
    rw [true_times _ time known] at is_time
    cases is_time
    exact ⟨⟨.genesis, .genesis⟩, if_pos ⟨low_le, lt_high⟩, rfl⟩
  | @high search mtp searching on ready =>
    rw [searching] at inBounds tracks
    obtain ⟨-, within, -⟩ := inBounds
    obtain ⟨-, -, positive, to_tip⟩ := within.mid on
    have is_mtp := mtpOf_ready positive (by omega) (by omega) true_times ready
    by_cases below : mtp < self.high
    · obtain ⟨-, lo_eq, hi_eq, -⟩ := search.recordTakeHighest_holds tip_bounded within on
      rw [decide_eq_true below]
      change Bisects _ 1 _ (search.recordTakeHighest true).lo (search.recordTakeHighest true).hi
      rw [lo_eq, hi_eq]
      exact tracks.raise (closed _ _ (Nat.le_refl _)) to_tip (is_mtp ▸ below)
    · obtain ⟨-, lo_eq, hi_eq, -⟩ := search.recordTakeHighest_fails tip_bounded within on
      rw [decide_eq_false below]
      change Bisects _ 1 _ (search.recordTakeHighest false).lo (search.recordTakeHighest false).hi
      rw [lo_eq, hi_eq]
      exact tracks.lower (closed _ _ (Nat.le_refl _)) positive (is_mtp ▸ below)
  | @highest search searching crossed =>
    rw [searching] at inBounds tracks
    obtain ⟨above_genesis, within, best_eq⟩ := inBounds
    have ends := lo_of_finished within crossed
    have inside_tip := within.spans.le_to
    have tall : ∀ height, search.hi < height → height ≤ self.tip.value → self.high ≤ mtpAt times height :=
      fun height above at_most => Nat.le_of_not_lt (tracks.fails height above at_most)
    rw [best_eq]
    split
    · next nothing =>
      -- Even the median of height 1, the time of the genesis block, is too high.
      intro height at_most time is_time low_le lt_high
      exfalso
      apply Nat.not_le_of_lt lt_high
      rcases Nat.eq_zero_or_pos height.value with zero | positive
      · rw [zero] at is_time
        rw [← mtpAt_one is_time]
        exact tall 1 (by omega) above_genesis
      · exact excluded_above rules tall is_time at_most (by omega)
    · next found =>
      have fits : search.lo - 1 ≤ maxHeight := by omega
      have above : ∀ height time, times[height]? = some time → height ≤ self.tip.value →
          search.lo - 1 < height → self.high ≤ time :=
        fun height time is_time at_most above =>
          excluded_above rules tall is_time at_most (by omega)
      unfold startLowPhase
      dsimp only
      rw [tryFrom, dif_pos fits, getD_some]
      split
      · exact tracks_finalize (zero_le _) above
          fun height _ _ below => absurd below (not_lt_zero height)
      · next everywhere =>
        have from_genesis : self.drift.enforcedFrom = .genesis :=
          ext (Nat.le_zero.mp (Nat.le_of_not_lt everywhere))
        refine ⟨from_genesis, ?_, .whole⟩
        intro height above at_most
        exact tall height (by dsimp only at above; omega) at_most
  | @low search highBound mtp searching on ready =>
    rw [searching] at inBounds tracks
    obtain ⟨below_tip, -, within, -⟩ := inBounds
    obtain ⟨from_genesis, above, bisects⟩ := tracks
    obtain ⟨-, -, positive, to_bound⟩ := within.mid on
    have below_tip := le_def.mp below_tip
    have is_mtp := mtpOf_ready positive (by omega) (by omega) true_times ready
    refine ⟨from_genesis, above, ?_⟩
    by_cases enough : self.low - driftSeconds ≤ mtp
    · obtain ⟨-, lo_eq, hi_eq, -⟩ := search.recordTakeLowest_holds highBound.bounded within on
      rw [decide_eq_true enough]
      rw [lo_eq, hi_eq]
      exact bisects.lower (closed _ _ below_tip) positive (is_mtp ▸ Nat.not_lt_of_le enough)
    · obtain ⟨-, lo_eq, hi_eq, -⟩ := search.recordTakeLowest_fails highBound.bounded within on
      rw [decide_eq_false enough]
      dsimp only
      rw [lo_eq, hi_eq]
      exact bisects.raise (closed _ _ below_tip) to_bound (is_mtp ▸ Nat.lt_of_not_le enough)
  | @lowest search highBound searching crossed =>
    rw [searching] at inBounds tracks
    obtain ⟨below_tip, nonzero, within, best_eq⟩ := inBounds
    obtain ⟨from_genesis, tall, bisects⟩ := tracks
    have ends := lo_of_finished within crossed
    have above : ∀ height time, times[height]? = some time → height ≤ self.tip.value →
        highBound.value < height → self.high ≤ time :=
      fun height time is_time at_most above => excluded_above rules tall is_time at_most above
    have below : 1 < search.lo → ∀ height time, times[height]? = some time → height < search.lo →
        time < self.low :=
      fun above_one height time is_time below =>
        excluded_below rules from_genesis bisects.holds above_one is_time below
    rw [best_eq]
    split
    · next nothing =>
      intro height at_most time is_time low_le lt_high
      exfalso
      rcases lt_or_ge highBound.value height.value with over_bound | under_bound
      · exact Nat.not_le_of_lt lt_high (above _ time is_time at_most over_bound)
      · exact Nat.not_lt_of_le low_le (below (by omega) _ time is_time (by omega))
    · next found =>
      have le_to := within.spans.le_to
      have bound_bounded := highBound.bounded
      have fits : search.hi + 1 ≤ maxHeight := by omega
      unfold finishLowPhase
      dsimp only
      split
      · exact tracks_finalize (zero_le _) above
          fun height _ _ below => absurd below (not_lt_zero height)
      · next above_one =>
        rw [tryFrom, dif_pos fits, getD_some]
        refine tracks_finalize (le_def.mpr (by dsimp only; omega)) above ?_
        intro height time is_time under
        exact below (by omega) height time is_time (by dsimp only at under; omega)

/-! ## Whole searches -/

section Searches

variable {ε : Type} {read : Height → Except ε (Option BlockTime)} {answers : Height → Option BlockTime}
  {tip : Height} (low high : BlockTime) {drift : MaxBlockTimeDrift}

/-- Whatever is answered, a search ends; it asks at or below the tip, for no height twice, and fails on an
absent answer. -/
theorem drive_new (reads : ∀ height ≤ tip, read height = .ok (answers height)) {fuel : Nat}
    (enough : driveFuel tip ≤ fuel) : ∃ last requested outcome,
      (new tip low high drift).drive read fuel [] = some (.ok (requested, outcome)) ∧
      last.Ends outcome ∧ Asked answers (new tip low high drift) last requested ∧
      Relation.ReflTransGen (Step answers) (new tip low high drift, []) (last, requested) := by
  have asked := asked_new answers tip low high drift
  have bounded := remaining_new tip low high drift
  obtain ⟨last, requested, outcome, driven, ends, reaches⟩ := drive_reaches reads asked (by
    have tip_eq : (new tip low high drift).tip = tip := rfl
    rw [tip_eq, length_nil]
    unfold driveFuel at enough
    exact lt_of_lt_of_le (by omega) enough)
  exact ⟨last, requested, outcome, driven, ends, asked.steps reaches, reaches⟩

theorem Asked.outcome_of_absent {start last : CandidateSearch} {requested : List Height}
    {outcome : Except MissingHeader (Option HeightRange)}
    (asked : Asked answers start last requested) (ends : last.Ends outcome) {height : Height}
    (member : height ∈ requested) (absent : answers height = none) : outcome = .error ⟨height⟩ := by
  cases outcome with
  | ok bracket =>
    have answered : last.turn = .answer (.done bracket) := by rw [turn, ends]
    rcases asked.absent height member absent with failed | fails
    · rw [ends] at failed
      cases failed
    · rw [answered] at fails
      cases fails
  | error missing =>
    have answered := turn_of_failed ends
    rcases asked.absent height member absent with failed | fails
    · rw [ends] at failed
      cases failed
      rfl
    · rw [answered] at fails
      cases fails

variable {times : List BlockTime} (rules : KeepsTimeRules drift times) (inside : tip.value < times.length)
  {low high}

include rules inside

theorem Tracks.steps {last : CandidateSearch} {requested : List Height}
    (reaches : Relation.ReflTransGen (Step fun height => times[height.value]?)
      (new tip low high drift, []) (last, requested)) : Tracks times last := by
  have asked_first := asked_new (fun height => times[height.value]?) tip low high drift
  generalize is_last : (last, requested) = end_state at reaches
  induction reaches generalizing last requested with
  | refl =>
    cases is_last
    unfold Tracks new
    by_cases empty : high ≤ low
    · rw [if_pos empty]
      intro height _ time _ low_le lt_high
      exact absurd (Nat.lt_of_le_of_lt low_le lt_high) (Nat.not_lt_of_le empty)
    · rw [if_neg empty]
      by_cases alone : tip = .genesis
      · rw [if_pos alone]
        trivial
      · rw [if_neg alone]
        exact .whole
  | @tail middle _ before one ih =>
    obtain ⟨self, asked_so_far⟩ := middle
    cases is_last
    have asked := asked_first.steps before
    have tracks := ih rfl
    cases one with
    | ask _ => exact tracks
    | turn again =>
      obtain ⟨frame, advances⟩ := turn_again asked.inBounds again
      have drift_eq : self.drift = drift := by rw [asked.frame]; rfl
      have tip_eq : self.tip = tip := asked.tip_eq
      have true_times : ∀ height t, self.cached height = some (some t) →
          times[height.value]? = some t := by
        intro height t known
        rw [asked.cached_eq] at known
        split at known
        · exact some.inj known
        · cases known
      rw [frame]
      exact tracks.advance (drift_eq ▸ rules) (tip_eq ▸ inside) true_times asked.inBounds advances

/-- On a chain that keeps the rules, the search over its times gives a bracket of every block in the
range. -/
theorem drive_complete (reads : ∀ height ≤ tip, read height = .ok times[height.value]?) {fuel : Nat}
    (enough : driveFuel tip ≤ fuel) : ∃ requested bracket,
      (new tip low high drift).drive read fuel [] = some (.ok (requested, .ok bracket)) ∧
      requested.Nodup ∧ (∀ height ∈ requested, height ≤ tip) ∧
      (∀ range, bracket = some range → range.start ≤ range.stop ∧ range.stop ≤ tip) ∧
      ∀ height ≤ tip, ∀ time, times[height.value]? = some time → low ≤ time → time < high →
        ∃ range, bracket = some range ∧ covers range height = true := by
  obtain ⟨last, requested, outcome, driven, ends, asked, reaches⟩ :=
    drive_new low high reads enough
  have tracks := Tracks.steps rules inside reaches
  cases outcome with
  | error missing =>
    obtain ⟨member, absent⟩ := asked.failed missing ends
    have at_most := le_def.mp (asked.at_most_tip _ member)
    rw [getElem?_eq_none_iff] at absent
    exact absurd (Nat.lt_of_le_of_lt at_most inside) (Nat.not_lt_of_le absent)
  | ok bracket =>
    have in_bounds := asked.inBounds
    have frame := asked.frame
    unfold InBounds at in_bounds
    unfold Tracks at tracks
    rw [ends] at in_bounds tracks
    rw [frame] at in_bounds tracks
    exact ⟨requested, bracket, driven, asked.nodup, asked.at_most_tip, in_bounds, tracks⟩

end Searches

end Zaino.Consensus.CandidateSearch
