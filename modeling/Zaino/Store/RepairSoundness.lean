import Zaino.Store.RepairExactness

/-!
# Whether a repaired watermark is repaired

A repair looks at the headers of one window, below the highest header it finds. When it stamps the
height beneath the lowest hole of that window, the window below the new stamp reaches further down
than what was looked at, by as much as the stamp was lowered; and a hole at the window's last height
puts the stamp on a height that was not looked at itself. What was looked at is whole, so that the
repair is sound, and repeating it changes nothing, exactly when the headers just below the window are
held as well (`repair_sound_iff`).
-/

namespace Zaino.Store.StoreReader

open Library Persistence Lmdb Indexes Fallible FormatVersion Nat

/-- The headers index answers that it holds a header at the height. -/
def Held (store : StoreReader) (trees : Trees) (height : Nat) : Prop :=
  ∃ bounded, store.headerHeld trees ⟨height, bounded⟩ = .ok true

/-- The stamp names a height that holds a header, and no header is missing in the window below it. -/
def Sound (store : StoreReader) (trees : Trees) : Prop :=
  ∀ stamped, Watermark.read trees = some stamped →
    Held store trees stamped.value ∧
      ∀ height < stamped.value, stamped.value ≤ height + window → Held store trees height

/-- A sound store that a repair finds consistent. -/
structure SoundAndIdempotent (store : StoreReader) (trees : Trees) : Prop where
  sound : Sound store trees
  idempotent : store.repairWatermark.Returns trees none trees

section Probes

variable {store : StoreReader} {trees : Trees}

/-- With every header of the window held, the window's probes leave the stamp where it is. -/
theorem unbrokenTop_of_held {claimed probe corrected : Height} {searched steps : Nat}
    (whole : ∀ height < probe.value, probe.value ≤ height + steps → Held store trees height) :
    unbrokenTop (store.headerHeld trees) claimed searched steps probe corrected = .ok corrected := by
  induction steps generalizing probe with
  | zero => rfl
  | succ steps ih =>
    rw [unbrokenTop]
    split
    · rfl
    · next below is_below =>
      have step : below.value + 1 = probe.value := Height.checkedSub_eq_some.mp is_below
      obtain ⟨_, held⟩ := whole below.value (by omega) (by omega)
      have probed : store.headerHeld trees below = .ok true := held
      rw [probed, ok_bind]
      exact ih fun height lower within => whole height (by omega) (by omega)

end Probes

/-! ## A sound store stays as it is -/

section Sound

variable {store : StoreReader} {trees : Trees}

theorem repairWatermark_of_sound (sound : Sound store trees) :
    store.repairWatermark.Returns trees none trees := by
  refine .bind (a := trees) rfl ?_
  cases stamped : Watermark.read trees with
  | none => exact rfl
  | some claimed =>
    obtain ⟨⟨_, held⟩, whole⟩ := sound claimed stamped
    have search : highestHeader (store.headerHeld trees) claimed claimed.value claimed.bounded 0 =
        .ok (claimed, 0) := by
      obtain ⟨value, bounded⟩ := claimed
      cases value <;> (rw [highestHeader, show store.headerHeld trees _ = _ from held]; rfl)
    refine .bind (.ofExcept search) ?_
    refine .bind (.ofExcept (unbrokenTop_of_held whole)) ?_
    rw [if_pos rfl]
    rfl

theorem soundAndIdempotent_iff : SoundAndIdempotent store trees ↔ Sound store trees :=
  ⟨SoundAndIdempotent.sound, fun sound => ⟨sound, repairWatermark_of_sound sound⟩⟩

end Sound

/-! ## What a repair leaves -/

section Repaired

variable {store : StoreReader} {trees : Trees}
  (unreserved : ⟨metaName, .walkOrdered⟩ ∉ store.specs)

include unreserved

/-- The trim and the stamp change no header at or below the corrected height. -/
theorem headerHeld_repaired {corrected height : Height} (below : height.value ≤ corrected.value) :
    store.headerHeld (repaired store trees corrected) height = store.headerHeld trees height := by
  have versions : repaired store trees corrected metaName =
      trees metaName := by
    rw [repaired, apply_stamp_of_ne _ _ (by decide +kernel), trimmedTrees, if_neg unreserved]
  have fresh : freshness (repaired store trees corrected) headersName
      store.headers.formatVersion =
        freshness trees headersName store.headers.formatVersion := by
    have recorded : recordedVersion (repaired store trees corrected) headersName =
        recordedVersion trees headersName := by
      rw [recordedVersion, recordedVersion, versions]
    rw [freshness, freshness, recorded]
  have header : (repaired store trees corrected headersName)[heightKey height.value]? =
      (trees headersName)[heightKey height.value]? := by
    rw [repaired, apply_stamp_of_ne _ _ (by decide +kernel), trimmedTrees]
    split
    · rw [OrderedMap.getElem?_trimRange, if_neg]
      rw [heightKey_trimmed corrected height.bounded]
      omega
    · rfl
  rw [headerHeld, headerHeld, fresh, header]

theorem held_repaired {corrected : Height} {height : Nat} (below : height ≤ corrected.value) :
    Held store (repaired store trees corrected) height ↔ Held store trees height :=
  exists_congr fun _ => by rw [headerHeld_repaired unreserved below]

omit unreserved

theorem read_repaired (corrected : Height) :
    Watermark.read (repaired store trees corrected) = some corrected :=
  Watermark.read_stamp _ corrected

/-- What was looked at is held: the corrected height and the heights below it, down to where the
window ends. -/
theorem held_of_searches {claimed top corrected : Height} {searched : Nat}
    (search : highestHeader (store.headerHeld trees) claimed claimed.value claimed.bounded 0 =
      .ok (top, searched))
    (run : unbrokenTop (store.headerHeld trees) claimed searched window top top = .ok corrected)
    {height : Nat} (below : height ≤ corrected.value) (within : top.value ≤ height + window) :
    Held store trees height := by
  have bounded : height ≤ maxHeight := le_trans below corrected.bounded
  by_cases is_top : height = top.value
  · rw [is_top]
    exact ⟨top.bounded, (highestHeader_ok claimed.bounded search).2.1⟩
  · rcases unbrokenTop_ok run with ⟨rfl, whole⟩ | ⟨hole, is_hole, lower, _, _, lowest⟩
    · exact ⟨bounded, whole ⟨height, bounded⟩ (lt_of_le_of_ne below is_top) within⟩
    · exact ⟨bounded, lowest ⟨height, bounded⟩ (by dsimp only; omega) within⟩

theorem TopHeader.unique {holds : Nat → Prop} {claimed a b : Nat} (first : TopHeader holds claimed a)
    (second : TopHeader holds claimed b) : a = b := by
  obtain ⟨a_le, a_holds, above_a⟩ := first
  obtain ⟨b_le, b_holds, above_b⟩ := second
  rcases lt_trichotomy a b with below | equal | above
  · exact absurd b_holds (above_a b below b_le)
  · exact equal
  · exact absurd a_holds (above_b a above a_le)

/-- After a repair that returns, the store is sound and a second repair finds it consistent, exactly
when no header is missing that lies in the window below the stamp, or at the stamp, and below the
window that was searched. -/
theorem repair_sound_iff {trees' : Trees} {outcome : Option WatermarkRepair}
    (unreserved : ⟨FormatVersion.metaName, .walkOrdered⟩ ∉ store.specs)
    (returned : store.repairWatermark.Returns trees outcome trees') :
    SoundAndIdempotent store trees' ↔
      ∀ (claimed : Height) (top corrected : Nat), Watermark.read trees = some claimed →
        TopHeader (HoldsHeader store trees) claimed.value top →
        UnbrokenTop (HoldsHeader store trees) window top corrected →
        ∀ height ≤ corrected, corrected ≤ height + window → height + window < top →
          Held store trees height := by
  rw [soundAndIdempotent_iff]
  rcases repairWatermark_cases returned with ⟨unstamped, _, rfl⟩ |
    ⟨claimed, top, searched, corrected, stamped, search, run, outcomes⟩
  · constructor
    · intro _ claimed _ _ stamped
      rw [unstamped] at stamped
      cases stamped
    · intro _ stamped read
      rw [unstamped] at read
      cases read
  · obtain ⟨is_top, unbroken⟩ := repairPoint_of_searches search run
    -- The condition speaks of the heights that the searches found.
    have found : (∀ (claimed : Height) (top corrected : Nat), Watermark.read trees = some claimed →
        TopHeader (HoldsHeader store trees) claimed.value top →
        UnbrokenTop (HoldsHeader store trees) window top corrected →
        ∀ height ≤ corrected, corrected ≤ height + window → height + window < top →
          Held store trees height) ↔
        ∀ height ≤ corrected.value, corrected.value ≤ height + window →
          height + window < top.value → Held store trees height := by
      constructor
      · intro all
        exact all claimed top.value corrected.value stamped is_top unbroken
      · intro this claimed' top' corrected' stamped' is_top' unbroken'
        rw [stamped] at stamped'
        cases stamped'
        have same_top := is_top.unique is_top'
        have same_corrected := RepairPoint.unique ⟨_, is_top, unbroken⟩ ⟨_, is_top', unbroken'⟩
        subst same_top same_corrected
        exact this
    have below_top : corrected.value ≤ top.value := by
      rcases unbroken with ⟨same, _⟩ | ⟨lower, _⟩ <;> omega
    rw [found]
    rcases outcomes with ⟨rfl, _, rfl⟩ | ⟨_, _, _, rfl⟩
    · -- The stamp stands on the top header, and nothing below the window matters.
      have at_top : top.value = corrected.value := by
        have := is_top.1
        omega
      constructor
      · intro _ height _ within beyond
        omega
      · intro _ claimed read
        rw [stamped] at read
        cases read
        exact ⟨held_of_searches search run (Nat.le_refl _) (by omega),
          fun height below within => held_of_searches search run (by omega) (by omega)⟩
    · change Sound store (repaired store trees corrected) ↔ _
      constructor
      · intro sound height below within _
        obtain ⟨at_stamp, whole⟩ := sound corrected (read_repaired corrected)
        rw [← held_repaired unreserved below]
        rcases Nat.lt_or_ge height corrected.value with lower | last
        · exact whole height lower within
        · rwa [show height = corrected.value by omega]
      · intro unsearched claimed read
        rw [read_repaired corrected] at read
        cases read
        have all_held : ∀ height ≤ corrected.value, corrected.value ≤ height + window →
            Held store (repaired store trees corrected) height := by
          intro height below within
          rw [held_repaired unreserved below]
          rcases Nat.lt_or_ge (height + window) top.value with beyond | inside
          · exact unsearched height below within beyond
          · exact held_of_searches search run below inside
        exact ⟨all_held _ (Nat.le_refl _) (by omega),
          fun height below within => all_held height (by omega) within⟩

end Repaired

/-! ## A gap wider than the window -/

section Gap

/-- The repair of a store without holes stays as it is. -/
theorem repair_sound_sample : SoundAndIdempotent sampleStore (sampleRepaired 0) := by
  have unreserved : ⟨FormatVersion.metaName, .walkOrdered⟩ ∉ sampleStore.specs := by decide +kernel
  apply (repair_sound_iff unreserved sample_returns).mpr
  intro claimed top corrected stamped is_top unbroken height below within beyond
  have read : Watermark.read (sampleTrees 0) = some height5 := by decide +kernel
  rw [read] at stamped
  cases stamped
  have low : top ≤ 5 := is_top.1
  unfold window at beyond
  omega

/-- Below a header with nothing but holes in the window, the stamp goes beneath the last of them. -/
theorem unbrokenTop_of_missing {held : Height → Except WatermarkRepairError Bool}
    {claimed probe corrected result : Height} {searched steps : Nat}
    (missing : ∀ height : Height, height.value < probe.value →
      probe.value ≤ height.value + (steps + 1) → held height = .ok false)
    (is_result : result.value + (steps + 2) = probe.value) :
    unbrokenTop held claimed searched (steps + 1) probe corrected = .ok result := by
  have step : ∀ (steps : Nat) {probe corrected : Height} (positive : 2 ≤ probe.value),
      held ⟨probe.value - 1, le_trans (sub_le _ _) probe.bounded⟩ = .ok false →
      unbrokenTop held claimed searched (steps + 1) probe corrected =
        unbrokenTop held claimed searched steps
          ⟨probe.value - 1, le_trans (sub_le _ _) probe.bounded⟩
          ⟨probe.value - 2, le_trans (sub_le _ _) probe.bounded⟩ := by
    intro steps probe corrected positive absent
    have below : probe.checkedSub 1 = some ⟨probe.value - 1, le_trans (sub_le _ _)
        probe.bounded⟩ := Height.checkedSub_eq_some.mpr (by dsimp only; omega)
    have beneath : Height.checkedSub ⟨probe.value - 1, le_trans (sub_le _ _)
        probe.bounded⟩ 1 = some ⟨probe.value - 2, le_trans (sub_le _ _) probe.bounded⟩ :=
      Height.checkedSub_eq_some.mpr (by dsimp only; omega)
    rw [unbrokenTop, below]
    simp only [absent, ok_bind, lowered, beneath]
  induction steps generalizing probe corrected with
  | zero =>
    rw [step 0 (by omega) (missing _ (by dsimp only; omega) (by dsimp only; omega)), unbrokenTop,
      Except.ok.injEq]
    exact Height.ext (by dsimp only; omega)
  | succ steps ih =>
    rw [step (steps + 1) (by omega) (missing _ (by dsimp only; omega) (by dsimp only; omega))]
    exact ih (fun height lower within => missing height (by dsimp only at lower; omega)
      (by dsimp only at within; omega)) (by dsimp only; omega)

def gapTop : Height := ⟨window + 2, by decide⟩

def height1 : Height := sampleHeight 1

def height0 : Height := ⟨0, by decide⟩

/-- Headers at genesis and two above the width of the window, which the stamp claims. -/
def gapTrees : Trees := fun name =>
  if name = headersName then
    ((∅ : Tree).insert (heightKey 0) [0]).insert (heightKey gapTop.value) [1]
  else if name = Watermark.name then (∅ : Tree).insert Watermark.key [2, 64, 0, 0]
  else if name = metaName then
    (∅ : Tree).insert headersName.asStr [7, 0, 0, 0, 0, 0, 0, 0]
  else ∅

theorem gap_missing {height : Height} (positive : 0 < height.value)
    (below : height.value < gapTop.value) : sampleStore.headerHeld gapTrees height = .ok false := by
  have fresh : freshness gapTrees headersName sampleStore.headers.formatVersion =
      .fresh := by decide +kernel
  have absent : (gapTrees headersName)[heightKey height.value]? = none := by
    rw [gapTrees, if_pos rfl, Std.ExtTreeMap.getElem?_insert,
      compare_heightKey gapTop.bounded height.bounded, if_neg, Std.ExtTreeMap.getElem?_insert,
      compare_heightKey (zero_le _) height.bounded, if_neg]
    · rfl
    · rw [Nat.compare_eq_eq]
      omega
    · rw [Nat.compare_eq_eq]
      omega
  rw [headerHeld, fresh, absent]

theorem gap_returns : ∃ trees', sampleStore.repairWatermark.Returns gapTrees
    (some ⟨gapTop, height1, [(headersName, 1)]⟩) trees' := by
  have read : Watermark.read gapTrees = some gapTop := by decide +kernel
  have search : highestHeader (sampleStore.headerHeld gapTrees) gapTop gapTop.value gapTop.bounded 0 =
      .ok (gapTop, 0) := by decide +kernel
  have run : unbrokenTop (sampleStore.headerHeld gapTrees) gapTop 0 window gapTop gapTop =
      .ok height1 := by
    have edge : height1.value + (2 ^ 14 - 1 + 2) = gapTop.value := by decide
    refine unbrokenTop_of_missing (fun height below within => gap_missing ?_ below) edge
    omega
  have trim : (sampleStore.trimWalkOrderedAbove height1).Returns gapTrees [(headersName, 1)]
      ((sampleStore.trimWalkOrderedAbove height1).run gapTrees).2 :=
    returns_of_ok (by decide +kernel)
  have stamp : (sampleStore.commit .commit [Watermark.stamp height1]).Returns
      ((sampleStore.trimWalkOrderedAbove height1).run gapTrees).2 ()
      ((sampleStore.commit .commit [Watermark.stamp height1]).run
        ((sampleStore.trimWalkOrderedAbove height1).run gapTrees).2).2 :=
    returns_of_ok (by decide +kernel)
  have moved : height1 ≠ gapTop := by decide
  refine ⟨((sampleStore.commit .commit [Watermark.stamp height1]).run
    ((sampleStore.trimWalkOrderedAbove height1).run gapTrees).2).2,
    .bind rfl ?_⟩
  rw [read]
  refine .bind (.ofExcept search) ?_
  refine .bind (.ofExcept run) ?_
  exact trim.bind (stamp.bind rfl)

/-- The repair reports that the stamp was moved to height 1, where no header is held, and a second
one moves it again. -/
theorem repair_stamps_missing_header :
    ∃ trees' trees'', sampleStore.repairWatermark.Returns gapTrees
        (some ⟨gapTop, height1, [(headersName, 1)]⟩) trees' ∧ Watermark.read trees' = some height1 ∧
      sampleStore.headerHeld trees' height1 = .ok false ∧
      sampleStore.repairWatermark.Returns trees' (some ⟨height1, height0, []⟩) trees'' := by
  have unreserved : ⟨FormatVersion.metaName, .walkOrdered⟩ ∉ sampleStore.specs := by decide +kernel
  obtain ⟨trees', returned⟩ := gap_returns
  obtain ⟨_, _, rfl⟩ := repairWatermark_returns returned
  refine ⟨_, _, returned, read_repaired height1, ?_, returns_of_ok ?_⟩
  · refine (headerHeld_repaired unreserved (Nat.le_refl _)).trans (gap_missing ?_ ?_)
    · decide
    · decide
  · decide +kernel

end Gap

end Zaino.Store.StoreReader
