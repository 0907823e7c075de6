import Mathlib.Logic.Relation
import Zaino.Finality.Seam

/-!
# The seam as a ratchet

The two halves publish from two tasks. A publish reads what its half has published before, and then
either refuses or sends the new value; between the two the other half may do anything. `SeamStep` has
one rule for each of these four accesses. A half is not shared, so its own publishes follow one
another. A watermark publish needs a horizon that the seam has released, however long ago: `issued`
holds them all.

What a publish is compared with may be out of date when its value is sent, but never too low: nothing
published falls (`Ratchet.Sound`). Hence the watermark stays below the horizon, although it is compared
with the horizon that authorised it and not with the current one.
-/

namespace Zaino.Finality

open Zaino

/-- What was published is still published, at that height or a higher one. -/
def NotAbove (lower upper : Option Height) : Prop :=
  ∀ height, lower = some height → ∃ height', upper = some height' ∧ height ≤ height'

theorem NotAbove.refl (height : Option Height) : NotAbove height height :=
  fun height' published => ⟨height', published, Nat.le_refl _⟩

theorem NotAbove.trans {lower middle upper : Option Height} (first : NotAbove lower middle)
    (second : NotAbove middle upper) : NotAbove lower upper := by
  intro height published
  obtain ⟨between, is_between, le_between⟩ := first height published
  obtain ⟨above, is_above, le_above⟩ := second between is_between
  exact ⟨above, is_above, Nat.le_trans le_between le_above⟩

theorem notAbove_none (upper : Option Height) : NotAbove none upper :=
  fun _ published => nomatch published

theorem notAbove_some {lower : Option Height} {upper : Height} :
    NotAbove lower (some upper) ↔ ∀ height, lower = some height → height ≤ upper := by
  constructor
  · intro below height published
    obtain ⟨_, same, le⟩ := below height published
    cases same
    exact le
  · exact fun below height published => ⟨upper, rfl, below height published⟩

/-- The height of the released horizon. -/
def SeamState.horizonHeight (seam : SeamState) : Option Height := seam.released.map Released.height

/-- The height of the committed watermark. -/
def SeamState.watermarkHeight (seam : SeamState) : Option Height :=
  seam.committed.map Committed.height

/-! ## What a publish does -/

/-- A rejected watermark changes nothing. -/
theorem DurableWatermark.advance_eq_error {seam seam' : SeamState} {authorisedBy : Released}
    {target : Height} {fault : SeamFault}
    (rejected : advance seam authorisedBy target = (.error fault, seam')) : seam' = seam := by
  unfold advance at rejected
  split at rejected
  · cases rejected
    rfl
  · split at rejected
    · split at rejected <;> cases rejected
      rfl
    · cases rejected

theorem DurableWatermark.advance_eq_ok {seam seam' : SeamState} {authorisedBy : Released}
    {target : Height} {committed : Committed}
    (published : advance seam authorisedBy target = (.ok committed, seam')) :
    committed = ⟨target⟩ ∧ seam' = { seam with committed := some committed } ∧
      target ≤ authorisedBy.height ∧ NotAbove seam.watermarkHeight (some target) := by
  unfold advance at published
  split at published
  · cases published
  · next within =>
    have authorised : target ≤ authorisedBy.height := Nat.le_of_not_lt within
    split at published
    · next held is_held =>
      split at published
      · cases published
      · next forwards =>
        cases published
        refine ⟨rfl, rfl, authorised, notAbove_some.mpr fun height published => ?_⟩
        rw [SeamState.watermarkHeight, is_held] at published
        cases published
        exact Nat.le_of_not_lt forwards
    · next nothing =>
      cases published
      refine ⟨rfl, rfl, authorised, ?_⟩
      rw [SeamState.watermarkHeight, nothing]
      exact notAbove_none _

/-- A retention floor lies below the watermark it is read from. -/
theorem ReorgHorizon.retentionFloor_notAbove (seam : SeamState) :
    NotAbove (retentionFloor seam) seam.watermarkHeight := by
  intro floor computed
  obtain ⟨committed, published, rfl⟩ := Option.map_eq_some_iff.mp computed
  refine ⟨committed.height, ?_, Nat.sub_le _ _⟩
  exact Option.map_eq_some_iff.mpr ⟨committed, published, rfl⟩

/-! ## The two halves at work -/

/-- The seam, the horizons it has released, and for each half the value it is about to send. -/
structure Ratchet where
  seam : SeamState
  issued : List Released
  sendingHorizon : Option Released
  sendingWatermark : Option Committed

namespace Ratchet

/-- A seam before its first publish. -/
def new (reorgDepth retentionMargin : Nat) : Ratchet :=
  ⟨.new reorgDepth retentionMargin, [], none, none⟩

/-- The volatile half compares a horizon with the one it has published. -/
def checkHorizon (ratchet : Ratchet) (tip : Height) (hash : BlockHash) : Ratchet :=
  match ReorgHorizon.advance ratchet.seam tip hash with
  | (.ok released, _) => { ratchet with sendingHorizon := some released }
  | (.error _, seam) => { ratchet with seam := seam }

/-- The volatile half sends a horizon, and holds it as a token. -/
def sendHorizon (ratchet : Ratchet) (released : Released) : Ratchet :=
  { ratchet with
    seam := { ratchet.seam with released := some released }
    issued := released :: ratchet.issued
    sendingHorizon := none }

/-- The durable half compares a watermark with its token and with the one it has published. -/
def checkWatermark (ratchet : Ratchet) (authorisedBy : Released) (target : Height) : Ratchet :=
  match DurableWatermark.advance ratchet.seam authorisedBy target with
  | (.ok committed, _) => { ratchet with sendingWatermark := some committed }
  | (.error _, seam) => { ratchet with seam := seam }

/-- The durable half sends a watermark. -/
def sendWatermark (ratchet : Ratchet) (committed : Committed) : Ratchet :=
  { ratchet with
    seam := { ratchet.seam with committed := some committed }
    sendingWatermark := none }

end Ratchet

/-- One access to the seam. -/
inductive SeamStep : Ratchet → Ratchet → Prop
  | checkHorizon {ratchet : Ratchet} (tip : Height) (hash : BlockHash) :
      ratchet.sendingHorizon = none → SeamStep ratchet (ratchet.checkHorizon tip hash)
  | sendHorizon {ratchet : Ratchet} {released : Released} :
      ratchet.sendingHorizon = some released → SeamStep ratchet (ratchet.sendHorizon released)
  | checkWatermark {ratchet : Ratchet} {authorisedBy : Released} (target : Height) :
      ratchet.sendingWatermark = none → authorisedBy ∈ ratchet.issued →
      SeamStep ratchet (ratchet.checkWatermark authorisedBy target)
  | sendWatermark {ratchet : Ratchet} {committed : Committed} :
      ratchet.sendingWatermark = some committed → SeamStep ratchet (ratchet.sendWatermark committed)

/-- Any interleaving of publishes. -/
abbrev SeamRun : Ratchet → Ratchet → Prop := Relation.ReflTransGen SeamStep

namespace Ratchet

variable {ratchet ratchet' : Ratchet}

/-- A comparison leaves the seam as it was, accepted or not. -/
theorem checkHorizon_seam (tip : Height) (hash : BlockHash) :
    (ratchet.checkHorizon tip hash).seam = ratchet.seam := by
  rw [checkHorizon]
  split
  · rfl
  · next rejected => exact ReorgHorizon.advance_eq_error rejected

theorem checkWatermark_seam (authorisedBy : Released) (target : Height) :
    (ratchet.checkWatermark authorisedBy target).seam = ratchet.seam := by
  rw [checkWatermark]
  split
  · rfl
  · next rejected => exact DurableWatermark.advance_eq_error rejected

/-- What every interleaving keeps: nothing that is about to be sent lies below what it replaces, and
neither a token nor a watermark lies above the horizon. -/
structure Sound (ratchet : Ratchet) : Prop where
  issued : ∀ token ∈ ratchet.issued,
    NotAbove (some token.height) ratchet.seam.horizonHeight
  horizon_rises : ∀ released, ratchet.sendingHorizon = some released →
    NotAbove ratchet.seam.horizonHeight (some released.height)
  watermark_rises : ∀ committed, ratchet.sendingWatermark = some committed →
    NotAbove ratchet.seam.watermarkHeight (some committed.height)
  watermark_authorised : ∀ committed, ratchet.sendingWatermark = some committed →
    NotAbove (some committed.height) ratchet.seam.horizonHeight
  watermark_below : NotAbove ratchet.seam.watermarkHeight ratchet.seam.horizonHeight

theorem sound_new (reorgDepth retentionMargin : Nat) : (new reorgDepth retentionMargin).Sound where
  issued := fun _ member => nomatch member
  horizon_rises := fun _ sending => nomatch sending
  watermark_rises := fun _ sending => nomatch sending
  watermark_authorised := fun _ sending => nomatch sending
  watermark_below := notAbove_none _

variable (sound : ratchet.Sound)

include sound

theorem Sound.checkHorizon (tip : Height) (hash : BlockHash) :
    (ratchet.checkHorizon tip hash).Sound := by
  rw [Ratchet.checkHorizon]
  split
  · next released _ accepted =>
    obtain ⟨_, _, forwards⟩ := ReorgHorizon.advance_eq_ok accepted
    refine { sound with horizon_rises := fun sent sending => ?_ }
    cases sending
    refine notAbove_some.mpr fun height published => ?_
    obtain ⟨held, is_held, rfl⟩ := Option.map_eq_some_iff.mp published
    exact forwards held is_held
  · next rejected =>
    rw [ReorgHorizon.advance_eq_error rejected]
    exact sound

theorem Sound.sendHorizon {released : Released}
    (sending : ratchet.sendingHorizon = some released) : (ratchet.sendHorizon released).Sound := by
  have rises : NotAbove ratchet.seam.horizonHeight (some released.height) :=
    sound.horizon_rises released sending
  refine ⟨?_, ?_, sound.watermark_rises, ?_, sound.watermark_below.trans rises⟩
  · intro token member
    rcases List.mem_cons.mp member with rfl | earlier
    · exact NotAbove.refl _
    · exact (sound.issued token earlier).trans rises
  · exact fun _ sending => nomatch sending
  · exact fun committed sending => (sound.watermark_authorised committed sending).trans rises

theorem Sound.checkWatermark {authorisedBy : Released} (target : Height)
    (authorised : authorisedBy ∈ ratchet.issued) :
    (ratchet.checkWatermark authorisedBy target).Sound := by
  rw [Ratchet.checkWatermark]
  split
  · next committed _ accepted =>
    obtain ⟨rfl, _, within, rises⟩ := DurableWatermark.advance_eq_ok accepted
    have below : NotAbove (some target) (some authorisedBy.height) :=
      notAbove_some.mpr fun height same => Option.some.inj same ▸ within
    refine { sound with watermark_rises := ?_, watermark_authorised := ?_ }
    · rintro _ ⟨⟩
      exact rises
    · rintro _ ⟨⟩
      exact below.trans (sound.issued authorisedBy authorised)
  · next rejected =>
    rw [DurableWatermark.advance_eq_error rejected]
    exact sound

theorem Sound.sendWatermark {committed : Committed}
    (sending : ratchet.sendingWatermark = some committed) :
    (ratchet.sendWatermark committed).Sound where
  issued := sound.issued
  horizon_rises := sound.horizon_rises
  watermark_rises := fun _ sending => nomatch sending
  watermark_authorised := fun _ sending => nomatch sending
  watermark_below := sound.watermark_authorised committed sending

end Ratchet

variable {ratchet ratchet' : Ratchet} (step : SeamStep ratchet ratchet')

include step

theorem SeamStep.sound (sound : ratchet.Sound) : ratchet'.Sound := by
  cases step with
  | checkHorizon tip hash idle => exact sound.checkHorizon tip hash
  | sendHorizon sending => exact sound.sendHorizon sending
  | checkWatermark target idle authorised => exact sound.checkWatermark target authorised
  | sendWatermark sending => exact sound.sendWatermark sending

/-- No access lowers what is published. -/
theorem SeamStep.rises (sound : ratchet.Sound) :
    NotAbove ratchet.seam.horizonHeight ratchet'.seam.horizonHeight ∧
      NotAbove ratchet.seam.watermarkHeight ratchet'.seam.watermarkHeight := by
  cases step with
  | checkHorizon tip hash idle =>
    rw [Ratchet.checkHorizon_seam]
    exact ⟨.refl _, .refl _⟩
  | sendHorizon sending => exact ⟨sound.horizon_rises _ sending, .refl _⟩
  | checkWatermark target idle authorised =>
    rw [Ratchet.checkWatermark_seam]
    exact ⟨.refl _, .refl _⟩
  | sendWatermark sending => exact ⟨.refl _, sound.watermark_rises _ sending⟩

theorem SeamStep.depths : ratchet'.seam.depths = ratchet.seam.depths := by
  cases step with
  | checkHorizon tip hash idle => rw [Ratchet.checkHorizon_seam]
  | sendHorizon sending => rfl
  | checkWatermark target idle authorised => rw [Ratchet.checkWatermark_seam]
  | sendWatermark sending => rfl

omit step

variable (run : SeamRun ratchet ratchet')

include run

theorem SeamRun.sound (sound : ratchet.Sound) : ratchet'.Sound := by
  induction run with
  | refl => exact sound
  | tail _ step ih => exact step.sound ih

theorem SeamRun.rises (sound : ratchet.Sound) :
    NotAbove ratchet.seam.horizonHeight ratchet'.seam.horizonHeight ∧
      NotAbove ratchet.seam.watermarkHeight ratchet'.seam.watermarkHeight := by
  induction run with
  | refl => exact ⟨.refl _, .refl _⟩
  | tail earlier step ih =>
    have rise := step.rises (SeamRun.sound earlier sound)
    exact ⟨ih.1.trans rise.1, ih.2.trans rise.2⟩

theorem SeamRun.depths : ratchet'.seam.depths = ratchet.seam.depths := by
  induction run with
  | refl => rfl
  | tail _ step ih => exact step.depths.trans ih

omit run

/-- What a publish from a state of the seam comes to: an accepted horizon is the one the depth
implies, and a rejected publish changes nothing. -/
structure PublishesExactly (reorgDepth : Nat) (seam : SeamState) : Prop where
  accepted : ∀ tip hash released seam',
    ReorgHorizon.advance seam tip hash = (.ok released, seam') →
      released = ⟨tip.saturatingSub reorgDepth, hash⟩ ∧ seam'.released = some released
  horizon_rejected : ∀ tip hash fault seam',
    ReorgHorizon.advance seam tip hash = (.error fault, seam') → seam' = seam
  watermark_rejected : ∀ authorisedBy target fault seam',
    DurableWatermark.advance seam authorisedBy target = (.error fault, seam') → seam' = seam

theorem publishesExactly (seam : SeamState) : PublishesExactly seam.depths.reorg seam where
  accepted := by
    intro tip hash released seam' published
    obtain ⟨is_horizon, rfl, _⟩ := ReorgHorizon.advance_eq_ok published
    exact ⟨is_horizon, rfl⟩
  horizon_rejected := fun _ _ _ _ rejected => ReorgHorizon.advance_eq_error rejected
  watermark_rejected := fun _ _ _ _ rejected => DurableWatermark.advance_eq_error rejected

/-- In every state of every interleaving the watermark lies at or below the horizon and the retention
floor at or below the watermark; neither quantity ever falls. -/
theorem seam_ratchet {reorgDepth retentionMargin : Nat} {ratchet later : Ratchet}
    (reached : SeamRun (.new reorgDepth retentionMargin) ratchet) (run : SeamRun ratchet later) :
    NotAbove ratchet.seam.horizonHeight later.seam.horizonHeight ∧
      NotAbove ratchet.seam.watermarkHeight later.seam.watermarkHeight ∧
      NotAbove ratchet.seam.watermarkHeight ratchet.seam.horizonHeight ∧
      NotAbove (ReorgHorizon.retentionFloor ratchet.seam) ratchet.seam.watermarkHeight ∧
      PublishesExactly reorgDepth ratchet.seam := by
  have sound : ratchet.Sound := SeamRun.sound reached (Ratchet.sound_new _ _)
  have rise := SeamRun.rises run sound
  refine ⟨rise.1, rise.2, sound.watermark_below, ReorgHorizon.retentionFloor_notAbove _, ?_⟩
  have depth : ratchet.seam.depths.reorg = reorgDepth :=
    congrArg Depths.reorg (SeamRun.depths reached)
  exact depth ▸ publishesExactly ratchet.seam

/-- A seam of depth 2 that has released height 3 and committed height 3 under it. -/
def publishedRatchet : Ratchet :=
  let horizon : Released := ⟨⟨3, by decide⟩, 0⟩
  ((((Ratchet.new 2 1).checkHorizon ⟨5, by decide⟩ 0).sendHorizon horizon).checkWatermark horizon
    horizon.height).sendWatermark ⟨horizon.height⟩

theorem publishedRatchet_reached : SeamRun (.new 2 1) publishedRatchet := by
  refine .tail (.tail (.tail (.tail .refl (.checkHorizon _ _ rfl)) (.sendHorizon rfl))
    (.checkWatermark _ rfl ?_)) (.sendWatermark rfl)
  exact List.mem_singleton_self _

/-- The next horizon may be published over that state. -/
theorem seam_ratchet_published : publishedRatchet.seam.watermarkHeight = some ⟨3, by decide⟩ ∧
      NotAbove publishedRatchet.seam.watermarkHeight publishedRatchet.seam.horizonHeight ∧
      PublishesExactly 2 publishedRatchet.seam := by
  have ratchet := seam_ratchet publishedRatchet_reached .refl
  exact ⟨rfl, ratchet.2.2.1, ratchet.2.2.2.2⟩

end Zaino.Finality
