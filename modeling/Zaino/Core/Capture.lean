import Zaino.Sync.Watermarks
import Zaino.Transparent.WindowRead

/-!
# Capturing both tiers

A view of the chain pairs the store, as of a watermark, with a window the chain head has published. The
two are not captured in one step. The store's half is a future that does nothing until it is polled,
while the head's half is taken when the view is asked for: the window comes first and the watermark
later, with anything in between.

The watermark only rises (`Sync.CommitsNext.rises`), so a window that met the store when it was taken
meets the store as it is captured (`snapshot_gapless`). The other order would not do: a window
published after the watermark was read may start far above it.
-/

namespace Zaino.Core

open Zaino Library ChainHead Finality Transparent

/-! ## What there is to capture -/

/-- The window that the chain head has published, and the watermark in the store's backend. -/
structure Tiers where
  published : MapBackedSnapshot
  persisted : Option Height

variable {ι Ctx : Type} [DecidableEq ι]

/-- The chain head publishes a window, trimmed or not, or the engine commits a batch. -/
inductive TierStep (set : Sync.BuiltIndexSet ι Ctx) : Tiers → Tiers → Prop
  | publish {tiers : Tiers} (window : MapBackedSnapshot) :
      TierStep set tiers { tiers with published := window }
  | commit {tiers : Tiers} {watermark : Height} : Sync.CommitsNext set tiers.persisted watermark →
      TierStep set tiers { tiers with persisted := some watermark }

/-- Every height below the window is at or below the watermark. -/
def Gapless (watermark : Option Height) (window : MapBackedSnapshot) : Prop :=
  ∀ range, coverage window = some range → ∀ height < range.start,
    ∃ stop, watermark = some stop ∧ height ≤ stop

/-! ## The halves -/

/-- A read that may succeed when it is tried again. -/
structure Transient where
  message : String
  deriving DecidableEq

/-- A value that is asked of the tiers when it is polled. -/
abbrev Future (α : Type) : Type := Tiers → Except Transient α

/-- A future whose value is there already. -/
def Future.ready {α : Type} (value : α) : Future α := fun _ => .ok value

/-- What the backend answers while a snapshot of the store is taken. -/
structure StoreReads where
  reader : Except String Unit
  watermark : Except String Unit
  /-- The block that the headers index holds at a height. -/
  header : Height → Except Transient (Option BlockRef)

/-- The store, pinned at a watermark. -/
structure StoreSnapshot where
  watermark : Option Height
  pinnedTip : Option BlockRef

/-- The block at the watermark, read off the headers index. -/
def StoreReads.pinnedTip (reads : StoreReads) : Option Height → Except Transient (Option BlockRef)
  | some height => reads.header height
  | none => .ok none

/-- Pin the store, once polled. -/
def StoreReader.snapshot (reads : StoreReads) : Future StoreSnapshot := fun tiers => do
  reads.reader.mapError fun e => ⟨"open reader: " ++ e⟩
  reads.watermark.mapError fun e => ⟨"read watermark: " ++ e⟩
  let watermark := tiers.persisted
  let pinnedTip ← reads.pinnedTip watermark
  .ok ⟨watermark, pinnedTip⟩

variable {reads : StoreReads}

theorem StoreReader.snapshot_eq_ok {tiers : Tiers} {store : StoreSnapshot}
    (pinned : snapshot reads tiers = .ok store) : store.watermark = tiers.persisted := by
  unfold snapshot at pinned
  dsimp only at pinned
  cases opened : reads.reader with
  | error e =>
    rw [opened] at pinned
    cases pinned
  | ok _ =>
    cases read : reads.watermark with
    | error e =>
      rw [opened, read] at pinned
      cases pinned
    | ok _ =>
      cases composed : reads.pinnedTip tiers.persisted with
      | error e =>
        rw [opened, read, composed] at pinned
        cases pinned
      | ok tip =>
        rw [opened, read, composed] at pinned
        cases pinned
        rfl

/-- The heights the store serves. -/
def StoreSnapshot.coverage (store : StoreSnapshot) : Option HeightRange :=
  store.watermark.map fun stop => ⟨.genesis, stop⟩

/-- Take the window that is published now. -/
def ChainHeadSubscriber.snapshot (now : Tiers) : Future MapBackedSnapshot := .ready now.published

/-! ## The view -/

/-- Both halves, and the seam between them. -/
structure ChainViewSnapshot where
  fs : StoreSnapshot
  nfs : MapBackedSnapshot
  watermark : Option Height

namespace ChainViewSnapshot

/-- Compose a view; the watermark is where the store's coverage ends. -/
def new (fs : StoreSnapshot) (nfs : MapBackedSnapshot) : ChainViewSnapshot :=
  ⟨fs, nfs, fs.coverage.map HeightRange.stop⟩

/-- Which side of the seam a height falls on. -/
inductive Route
  | finalised
  | volatile
  | initialBuildGap
  | aboveTip
  deriving DecidableEq

variable (view : ChainViewSnapshot)

/-- Classify a height. -/
def route (height : Height) : Route :=
  if view.watermark.any fun watermark => decide (height ≤ watermark) then .finalised
  else
    match coverage view.nfs with
    | some window =>
      if window.stop < height then .aboveTip
      else if window.start ≤ height then .volatile
      else .initialBuildGap
    | none => .aboveTip

/-- The window starts no higher than right above the watermark. -/
def Meets : Prop :=
  ∀ range, coverage view.nfs = some range →
    range.start.value ≤ match view.watermark with
      | some watermark => watermark.value + 1
      | none => 0

variable {view}

theorem meets_of_gapless (gapless : Gapless view.watermark view.nfs) : view.Meets := by
  intro range covered
  have below := gapless range covered
  by_contra above
  have bounded := range.start.bounded
  cases watermark : view.watermark with
  | none =>
    rw [watermark] at below above
    obtain ⟨_, absent, _⟩ := below .genesis (Nat.lt_of_not_le above)
    cases absent
  | some stop =>
    rw [watermark] at below above
    dsimp only at above
    obtain ⟨_, same, le⟩ := below ⟨stop.value + 1, by omega⟩ (Nat.lt_of_not_le above)
    cases same
    exact absurd (Height.le_def.mp le) (Nat.not_succ_le_self _)

theorem route_of_gapless (gapless : Gapless view.watermark view.nfs) (height : Height) :
    view.route height ≠ .initialBuildGap := by
  rw [route]
  split
  · exact nofun
  · next unfinalised =>
    split
    · next window covered =>
      split
      · exact nofun
      · split
        · exact nofun
        · next beneath =>
          obtain ⟨stop, isStop, le⟩ := gapless window covered height (Nat.lt_of_not_le beneath)
          rw [isStop, Option.any_some] at unfinalised
          exact absurd (decide_eq_true le) unfinalised
    · exact nofun

end ChainViewSnapshot

/-- Ask for a view. Both halves are asked for at once; the store's is polled first, then the head's. -/
def ChainView.snapshot (reads : StoreReads) (called : Tiers) :
    Tiers → Tiers → Except Transient ChainViewSnapshot :=
  let fs := StoreReader.snapshot reads
  let nfs := ChainHeadSubscriber.snapshot called
  fun polled polledLater => do
    let fs ← fs polled
    let nfs ← nfs polledLater
    .ok (.new fs nfs)

/-- A view has the window of the moment it was asked for and the watermark of a later one. -/
theorem ChainView.snapshot_eq_ok {called polled polledLater : Tiers}
    {view : ChainViewSnapshot} (captured : snapshot reads called polled polledLater = .ok view) :
    view.watermark = polled.persisted ∧ view.nfs = called.published := by
  unfold ChainView.snapshot at captured
  cases pinned : StoreReader.snapshot reads polled with
  | error e =>
    rw [pinned] at captured
    cases captured
  | ok store =>
    rw [pinned] at captured
    cases captured
    refine ⟨?_, rfl⟩
    rw [← StoreReader.snapshot_eq_ok pinned]
    change (store.watermark.map _).map _ = _
    cases store.watermark <;> rfl

/-! ## Any interleaving -/

variable {set : Sync.BuiltIndexSet ι Ctx}

theorem TierStep.rises {tiers tiers' : Tiers}
    (step : TierStep set tiers tiers') : NotAbove tiers.persisted tiers'.persisted := by
  cases step with
  | publish window => exact NotAbove.refl _
  | commit next => exact next.rises

theorem persisted_rises {tiers tiers' : Tiers}
    (steps : Relation.ReflTransGen (TierStep set) tiers tiers') :
    NotAbove tiers.persisted tiers'.persisted := by
  induction steps with
  | refl => exact NotAbove.refl _
  | tail _ step ih => exact ih.trans step.rises

/-- However the chain head publishes and the engine commits around the capture: if the tiers leave no
height between them when the view is asked for, the captured view has none either. -/
theorem ChainView.snapshot_gapless {called polled polledLater : Tiers} {view : ChainViewSnapshot}
    (gapless : Gapless called.persisted called.published)
    (before : Relation.ReflTransGen (TierStep set) called polled)
    (captured : snapshot reads called polled polledLater = .ok view) :
    Gapless view.watermark view.nfs ∧ view.Meets ∧
      ∀ height, view.route height ≠ .initialBuildGap := by
  obtain ⟨watermark, window⟩ := snapshot_eq_ok captured
  have still : Gapless view.watermark view.nfs := by
    intro range covered height below
    rw [window] at covered
    obtain ⟨stop, persisted, le⟩ := gapless range covered height below
    obtain ⟨stop', persisted', le'⟩ := persisted_rises before stop persisted
    rw [watermark]
    exact ⟨stop', persisted', Nat.le_trans le le'⟩
  exact ⟨still, ChainViewSnapshot.meets_of_gapless still, ChainViewSnapshot.route_of_gapless still⟩

/-- A window over one block. -/
def sampleWindow (height : Fin 100) : MapBackedSnapshot :=
  .fromInitialBlock (sampleBlock 20 19 height 1)

/-- A backend that reads well and holds no header. -/
def sampleReads : StoreReads := ⟨.ok (), .ok (), fun _ => .ok none⟩

/-- The window at height 1 is captured; before the store is polled, its engine commits height 1 and the
chain head publishes a window that starts at height 2. -/
theorem ChainView.snapshot_gapless_raised :
    ∃ view, ChainView.snapshot sampleReads ⟨sampleWindow 1, some .genesis⟩
        ⟨sampleWindow 2, some ⟨1, by decide⟩⟩ ⟨sampleWindow 2, some ⟨1, by decide⟩⟩ = .ok view ∧
      view.watermark = some ⟨1, by decide⟩ ∧ view.Meets := by
  have captured : ChainView.snapshot sampleReads ⟨sampleWindow 1, some .genesis⟩
      ⟨sampleWindow 2, some ⟨1, by decide⟩⟩ ⟨sampleWindow 2, some ⟨1, by decide⟩⟩ =
      .ok (.new ⟨some ⟨1, by decide⟩, none⟩ (sampleWindow 1)) := rfl
  refine ⟨_, captured, rfl, ?_⟩
  have committed : TierStep Sync.sampleSet ⟨sampleWindow 1, some .genesis⟩
      ⟨sampleWindow 1, some ⟨1, by decide⟩⟩ := .commit Sync.sampleEngine_commits.2
  have trimmed : TierStep Sync.sampleSet ⟨sampleWindow 1, some ⟨1, by decide⟩⟩
      ⟨sampleWindow 2, some ⟨1, by decide⟩⟩ := .publish _
  have covered : coverage (sampleWindow 1) = some ⟨⟨1, by decide⟩, ⟨1, by decide⟩⟩ := by
    decide +kernel
  have met : Gapless (some .genesis) (sampleWindow 1) := by
    intro range isRange height below
    rw [covered] at isRange
    cases isRange
    exact ⟨.genesis, rfl, Nat.le_of_lt_succ below⟩
  exact (ChainView.snapshot_gapless met (.tail (.single committed) trimmed) captured).2.1

end Zaino.Core
