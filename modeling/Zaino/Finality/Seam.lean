import Zaino.Primitives

/-!
# The seam between the durable and the volatile tier

Two published quantities behind one ratchet: the reorg horizon, which the volatile tier releases,
and the watermark, which the durable tier commits under a released horizon. Both halves of the
source's seam write through a shared state, so each `advance` returns the state it leaves behind.
-/

namespace Zaino.Finality

open Zaino

/-- The two configured depths. -/
structure Depths where
  /-- The consensus reorg bound. -/
  reorg : Nat
  /-- How far below the watermark the volatile tier keeps retaining. -/
  retentionMargin : Nat
  deriving DecidableEq

/-- A released horizon. -/
structure Released where
  height : Height
  hash : BlockHash
  deriving DecidableEq

/-- A committed watermark. -/
structure Committed where
  height : Height
  deriving DecidableEq

/-- What both halves share. -/
structure SeamState where
  depths : Depths
  released : Option Released
  committed : Option Committed
  deriving DecidableEq

/-- A publish the seam rejects. -/
inductive SeamFault where
  | regressedHorizon (target held : Height)
  | watermarkPastHorizon (target horizon : Height)
  | regressedWatermark (target held : Height)
  deriving DecidableEq

/-- A seam over two depths, nothing published yet. -/
def SeamState.new (reorgDepth retentionMargin : Nat) : SeamState :=
  ⟨⟨reorgDepth, retentionMargin⟩, none, none⟩

namespace ReorgHorizon

/-- The consensus reorg depth. -/
def reorgDepth (seam : SeamState) : Nat := seam.depths.reorg

/-- Publishes the horizon derived from `tip`. -/
def advance (seam : SeamState) (tip : Height) (hashAtHorizon : BlockHash) :
    Except SeamFault Released × SeamState :=
  let target := tip.saturatingSub seam.depths.reorg
  let publish :=
    let released : Released := ⟨target, hashAtHorizon⟩
    (.ok released, { seam with released := some released })
  match seam.released with
  | some held =>
    if target < held.height then (.error (.regressedHorizon target held.height), seam) else publish
  | none => publish

/-- The durable tier's watermark. -/
def durable (seam : SeamState) : Option Committed := seam.committed

/-- The lowest height the volatile tier must keep retaining. -/
def retentionFloor (seam : SeamState) : Option Height :=
  (durable seam).map fun committed => committed.height.saturatingSub seam.depths.retentionMargin

theorem advance_eq_ok {seam seam' : SeamState} {tip : Height} {hash : BlockHash}
    {released : Released} (published : advance seam tip hash = (.ok released, seam')) :
    released = ⟨tip.saturatingSub seam.depths.reorg, hash⟩ ∧
      seam' = { seam with released := some released } ∧
      ∀ held, seam.released = some held → held.height ≤ released.height := by
  unfold advance at published
  dsimp only at published
  split at published
  · next held isHeld =>
    split at published
    · cases published
    · next notBelow =>
      cases published
      refine ⟨rfl, rfl, fun held' isHeld' => ?_⟩
      rw [isHeld] at isHeld'
      cases isHeld'
      exact Nat.le_of_not_lt notBelow
  · next nothing =>
    cases published
    refine ⟨rfl, rfl, fun held isHeld => ?_⟩
    rw [nothing] at isHeld
    cases isHeld

theorem advance_eq_error {seam seam' : SeamState} {tip : Height} {hash : BlockHash}
    {fault : SeamFault} (rejected : advance seam tip hash = (.error fault, seam')) :
    seam' = seam := by
  unfold advance at rejected
  dsimp only at rejected
  split at rejected
  · split at rejected <;> cases rejected
    rfl
  · cases rejected

end ReorgHorizon

/-- Publishes the watermark reached under `authorisedBy`. -/
def DurableWatermark.advance (seam : SeamState) (authorisedBy : Released) (target : Height) :
    Except SeamFault Committed × SeamState :=
  let publish :=
    let committed : Committed := ⟨target⟩
    (.ok committed, { seam with committed := some committed })
  if authorisedBy.height < target then
    (.error (.watermarkPastHorizon target authorisedBy.height), seam)
  else
    match seam.committed with
    | some held =>
      if target < held.height then (.error (.regressedWatermark target held.height), seam) else publish
    | none => publish

end Zaino.Finality
