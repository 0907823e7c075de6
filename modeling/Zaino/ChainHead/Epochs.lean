import Zaino.ChainHead.Horizon

/-!
# Snapshot epochs

A published snapshot carries a generation, and subscribers are told the generation together with the
tip. The generation is stamped when a graph is published, from the previous snapshot and from the last
epoch announced, never from the graph itself: a graph rebuilt from a fresh anchor starts at generation
zero and is stamped all the same. So a generation names one tip along the whole life of the service
(`snapshot_epochs`), as long as the 64-bit counter has not saturated.
-/

namespace Zaino.ChainHead

open Zaino Library Finality

/-- The epoch a snapshot was published under. -/
def MapBackedSnapshot.epoch (g : MapBackedSnapshot) : ChainStateEpoch := ⟨g.generation, g.bestTip⟩

/-- The highest generation that the counter can hold. -/
def maxGeneration : Nat := 2 ^ 64 - 1

namespace ChainHeadService

variable {service later : ChainHeadService} {env : TickEnv}

/-- A service just anchored. -/
def anchoredAt (anchor : ChainHeadBlock) (seam : SeamState) : ChainHeadService :=
  ⟨.fromInitialBlock anchor, ⟨0, anchor.reference⟩, seam⟩

/-- Any number of ticks, failed ones included. -/
inductive Ticks : ChainHeadService → ChainHeadService → Prop
  | refl {service : ChainHeadService} : Ticks service service
  | tick {service later : ChainHeadService} (env : TickEnv) : Ticks service later →
      Ticks service (later.tick env).service

/-- Subscribers were last told the epoch of the snapshot that is published. -/
structure Announced (service : ChainHeadService) : Prop where
  updates : service.updates = service.current.epoch
  bounded : service.current.epoch.generation ≤ maxGeneration

theorem announced_anchoredAt (anchor : ChainHeadBlock) (seam : SeamState) :
    (anchoredAt anchor seam).Announced :=
  ⟨rfl, Nat.zero_le _⟩

/-- A publication keeps the epoch if it keeps the tip, and otherwise takes the next generation. -/
theorem publishSnapshot_epoch (next : MapBackedSnapshot) : (next.bestTip = service.current.bestTip ∧
        (service.publishSnapshot next).current.epoch = service.current.epoch ∧
        (service.publishSnapshot next).updates = service.updates) ∨
      (next.bestTip ≠ service.current.bestTip ∧ (service.publishSnapshot next).current.epoch =
          ⟨Nat.min (service.updates.generation + 1) maxGeneration, next.bestTip⟩ ∧
        (service.publishSnapshot next).updates = (service.publishSnapshot next).current.epoch) := by
  by_cases same : next.bestTip = service.current.bestTip
  · refine Or.inl ⟨same, ?_, if_neg fun changed => changed same⟩
    change ChainStateEpoch.mk (if next.bestTip = service.current.bestTip then _ else _)
      next.bestTip = _
    rw [if_pos same, same]
    rfl
  · refine Or.inr ⟨same, ?_, if_pos same⟩
    change ChainStateEpoch.mk (if next.bestTip = service.current.bestTip then _ else _)
      next.bestTip = _
    rw [if_neg same]
    rfl

/-- A tick leaves the published snapshot alone or publishes another. -/
theorem tick_publishes : ((service.tick env).service.current = service.current ∧
        (service.tick env).service.updates = service.updates) ∨
      ∃ seam next, (service.tick env).service = { service with seam := seam }.publishSnapshot next := by
  unfold tick
  split
  · exact Or.inl ⟨rfl, rfl⟩
  · exact Or.inr ⟨_, _, rfl⟩
  · exact Or.inl ⟨rfl, rfl⟩

theorem Announced.tick (announced : service.Announced) (env : TickEnv) :
    (service.tick env).service.Announced := by
  rcases @tick_publishes service env with ⟨current, updates⟩ | ⟨seam, next, published⟩
  · exact ⟨by rw [current, updates]; exact announced.updates, current ▸ announced.bounded⟩
  · rw [published]
    rcases @publishSnapshot_epoch { service with seam := seam } next with
      ⟨_, epoch, updates⟩ | ⟨_, epoch, updates⟩
    · refine ⟨by rw [updates, epoch]; exact announced.updates, ?_⟩
      rw [epoch]
      exact announced.bounded
    · refine ⟨updates, ?_⟩
      rw [epoch]
      exact Nat.min_le_right _ _

theorem Ticks.announced (ticks : Ticks service later) (announced : service.Announced) :
    later.Announced := by
  induction ticks with
  | refl => exact announced
  | tick env _ ih => exact ih.tick env

/-- How epochs follow one another: the generation never falls, and short of saturation it rises
whenever the tip changes. -/
def Follows (earlier later : ChainStateEpoch) : Prop :=
  earlier.generation ≤ later.generation ∧
    (later.generation < maxGeneration → earlier.bestTip ≠ later.bestTip →
      earlier.generation < later.generation)

theorem Follows.trans {first second third : ChainStateEpoch} (earlier : Follows first second)
    (later : Follows second third) : Follows first third := by
  refine ⟨Nat.le_trans earlier.1 later.1, fun unsaturated changed => ?_⟩
  by_cases kept : second.bestTip = third.bestTip
  · have before := earlier.2 (Nat.lt_of_le_of_lt later.1 unsaturated) (kept ▸ changed)
    exact Nat.lt_of_lt_of_le before later.1
  · exact Nat.lt_of_le_of_lt earlier.1 (later.2 unsaturated kept)

theorem follows_refl (epoch : ChainStateEpoch) : Follows epoch epoch :=
  ⟨Nat.le_refl _, fun _ changed => absurd rfl changed⟩

theorem Announced.tick_follows (announced : service.Announced) (env : TickEnv) :
    Follows service.current.epoch (service.tick env).service.current.epoch := by
  rcases @tick_publishes service env with ⟨current, _⟩ | ⟨seam, next, published⟩
  · rw [current]
    exact follows_refl _
  · rw [published]
    rcases @publishSnapshot_epoch { service with seam := seam } next with
      ⟨_, epoch, _⟩ | ⟨_, epoch, _⟩
    · rw [epoch]
      exact follows_refl _
    · rw [epoch, announced.updates]
      have bounded : service.current.generation ≤ maxGeneration := announced.bounded
      have stamp : Nat.min (service.current.generation + 1) maxGeneration =
          min (service.current.generation + 1) maxGeneration := rfl
      refine ⟨?_, fun unsaturated _ => ?_⟩
      · change service.current.generation ≤ Nat.min (service.current.generation + 1) maxGeneration
        omega
      · change Nat.min (service.current.generation + 1) maxGeneration < maxGeneration at unsaturated
        change service.current.generation < Nat.min (service.current.generation + 1) maxGeneration
        omega

theorem Ticks.follows (ticks : Ticks service later) (announced : service.Announced) :
    Follows service.current.epoch later.current.epoch := by
  induction ticks with
  | refl => exact follows_refl _
  | tick env earlier ih => exact ih.trans ((earlier.announced announced).tick_follows env)

/-- Along every run of ticks the generation of the published snapshot never falls; below saturation
two snapshots of one generation have one tip, and one whose tip differs from an earlier one's has a
greater generation; the epoch announced is always that of the snapshot published. -/
theorem snapshot_epochs {anchor : ChainHeadBlock} {seam : SeamState} {earlier later : ChainHeadService}
    (reached : Ticks (anchoredAt anchor seam) earlier) (run : Ticks earlier later) :
    earlier.current.generation ≤ later.current.generation ∧
      (later.current.generation < maxGeneration →
        (earlier.current.generation = later.current.generation →
          earlier.current.bestTip = later.current.bestTip) ∧
        (earlier.current.bestTip ≠ later.current.bestTip →
          earlier.current.generation < later.current.generation)) ∧
      earlier.updates = earlier.current.epoch := by
  have announced : earlier.Announced := reached.announced (announced_anchoredAt anchor seam)
  obtain ⟨rises, changes⟩ := run.follows announced
  refine ⟨rises, fun unsaturated => ⟨fun same => ?_, changes unsaturated⟩, announced.updates⟩
  by_contra changed
  exact absurd same (Nat.ne_of_lt (changes unsaturated changed))

/-- A tick that extends the window publishes the next generation. -/
theorem snapshot_epochs_extension : let earlier := anchoredAt (sampleBlock 21 10 1 1) (.new 1 0)
    let later := (earlier.tick toSecond).service
    later.current.generation = 1 ∧ later.updates = ⟨1, later.current.bestTip⟩ ∧
      earlier.current.generation < later.current.generation := by
  intro earlier later
  have run : Ticks earlier later := .tick toSecond .refl
  have epochs := snapshot_epochs .refl run
  have announced := (snapshot_epochs run .refl).2.2
  have generation : later.current.generation = 1 := by decide +kernel
  have changed : earlier.current.bestTip ≠ later.current.bestTip := by decide +kernel
  refine ⟨generation, ?_, (epochs.2.1 ?_).2 changed⟩
  · rw [announced, MapBackedSnapshot.epoch, generation]
  · rw [generation]
    decide

end ChainHeadService

end Zaino.ChainHead
