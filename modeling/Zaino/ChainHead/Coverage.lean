import Zaino.ChainHead.Moves
import Zaino.Finality.Ratchet

/-!
# The window meets the store

The durable tier holds the heights up to its watermark, the window the heights of its canonical chain.
A tick trims the window to a floor that it reads off the watermark, which may rise while the tick runs
and afterwards. It never falls, so the floor that was read stays at or below it: once the two tiers
cover every height up to the published tip, they go on doing so (`seam_stays_covered`).

Nothing is assumed of the validator. A block may even be served twice, with one hash and two heights;
the later one is then retained higher up, so a canonical height is never left without its block
(`Held`).
-/

namespace Zaino.ChainHead

open Zaino Library Finality

/-! ## Canonical heights have their blocks -/

/-- Every canonical entry lies at or below the tip and names a retained block, which lies no lower. -/
structure MapBackedSnapshot.Held (g : MapBackedSnapshot) : Prop where
  listed : ∀ {height hash}, g.heightsToHashes.lookup height = some hash →
    ∃ block, g.blockByHash hash = some block ∧ height ≤ block.height
  below_tip : ∀ {height hash}, g.heightsToHashes.lookup height = some hash → height ≤ g.tip.height

namespace MapBackedSnapshot

variable {g next : MapBackedSnapshot}

theorem held_fromInitialBlock (block : ChainHeadBlock) : (fromInitialBlock block).Held := by
  refine ⟨fun found => ?_, fun found => ?_⟩
  · obtain ⟨rfl, rfl⟩ := lookup_fromInitialBlock.mp found
    exact ⟨block, if_pos rfl, Nat.le_refl _⟩
  · obtain ⟨rfl, _⟩ := lookup_fromInitialBlock.mp found
    exact Nat.le_refl _

theorem Held.extend (held : g.Held) {block : ChainHeadBlock}
    (extended : g.extend block = (.ok (), next)) : next.Held := by
  obtain ⟨_, above, rfl⟩ := extend_eq_ok extended
  have lower : ∀ {height hash}, g.heightsToHashes.lookup height = some hash →
      height ≤ block.height := by
    intro height hash found
    have le := Height.le_def.mp (held.below_tip found)
    exact Height.le_def.mpr (by omega)
  refine ⟨fun {height hash} found => ?_, fun {height hash} found => ?_⟩
  · rw [blockByHash_replaceTip]
    rcases HashMap.lookup_insert_eq_some.mp found with ⟨rfl, rfl⟩ | ⟨_, old⟩
    · exact ⟨block, if_pos rfl, Nat.le_refl _⟩
    · split
      · exact ⟨block, rfl, lower old⟩
      · exact held.listed old
  · rcases HashMap.lookup_insert_eq_some.mp found with ⟨rfl, rfl⟩ | ⟨_, old⟩
    · exact Nat.le_refl _
    · exact lower old

theorem Held.rewindTo (held : g.Held) {fork : ChainHeadBlock}
    (rewound : g.rewindTo fork.reference = (.ok (), next)) (tip : next.tip = fork) : next.Held := by
  rcases rewindTo_eq_ok rewound with ⟨_, rfl⟩ | ⟨newTip, _, _, _, rfl⟩
  · exact held
  · obtain rfl : newTip = fork := tip
    refine ⟨fun {height hash} found => ?_, fun {height hash} found => ?_⟩
    · obtain ⟨old, below⟩ := HashMap.lookup_retain_eq_some.mp found
      rw [blockByHash_replaceTip]
      split
      · exact ⟨newTip, rfl, of_decide_eq_true below⟩
      · exact held.listed old
    · obtain ⟨_, below⟩ := HashMap.lookup_retain_eq_some.mp found
      exact of_decide_eq_true below

theorem Held.removeFinalisedBlocks (held : g.Held) (floor : Height) :
    (g.removeFinalisedBlocks floor).Held := by
  refine ⟨fun {height hash} found => ?_, fun {height hash} found => ?_⟩
  · obtain ⟨old, kept⟩ := heightsToHashes_removeFinalisedBlocks.mp found
    obtain ⟨block, retained, le⟩ := held.listed old
    refine ⟨block, blockByHash_removeFinalisedBlocks.mpr ⟨retained, ?_⟩, le⟩
    rcases kept with above | atTip
    · exact Or.inl (Nat.le_trans above le)
    · exact Or.inr atTip.symm
  · exact held.below_tip (heightsToHashes_removeFinalisedBlocks.mp found).1

theorem Held.bestBlockByHeight (held : g.Held) {height : Height} :
    (∃ block, g.bestBlockByHeight height = some block) ↔
      ∃ hash, g.heightsToHashes.lookup height = some hash :=
  Representation.exists_bestBlockByHeight held.listed

end MapBackedSnapshot

variable {Admits : ChainHeadBlock → Prop} {g g' : MapBackedSnapshot} {watermark : Option Height}

theorem Moved.held {Floor : Height → Prop} (moved : Moved Admits Floor g g')
    (held : g.Held) : g'.Held := by
  induction moved with
  | refl => exact held
  | extend _ _ extended ih => exact ih.extend extended
  | rewind _ _ _ rewound tip ih => exact ih.rewindTo rewound tip
  | trim _ _ ih => exact ih.removeFinalisedBlocks _

/-! ## What the two tiers cover -/

/-- The height is at or below the watermark. -/
def Durable (watermark : Option Height) (height : Height) : Prop := NotAbove (some height) watermark

/-- Every height up to the tip is durable or canonical in the window. -/
def Covers (watermark : Option Height) (g : MapBackedSnapshot) : Prop :=
  ∀ height, height ≤ g.tip.height →
    Durable watermark height ∨ ∃ block, g.bestBlockByHeight height = some block

/-- A floor that keeps every height above the watermark. -/
def KeepsAbove (watermark : Option Height) (floor : Height) : Prop :=
  ∀ height, ¬ Durable watermark height → floor ≤ height

theorem Covers.mono {watermark' : Option Height} (rises : NotAbove watermark watermark')
    (covers : Covers watermark g) : Covers watermark' g := by
  intro height le
  rcases covers height le with durable | canonical
  · exact Or.inl (durable.trans rises)
  · exact Or.inr canonical

theorem Moved.covers (moved : Moved Admits (KeepsAbove watermark) g g') (held : g.Held)
    (covers : Covers watermark g) : Covers watermark g' := by
  induction moved with
  | refl => exact covers
  | @extend g' next block moved _ extended ih =>
    have held' := (moved.held held).extend extended
    intro height le
    obtain ⟨_, above, rfl⟩ := MapBackedSnapshot.extend_eq_ok extended
    rw [held'.bestBlockByHeight]
    by_cases top : height = block.height
    · exact Or.inr ⟨block.hash, top ▸ AList.lookup_insert _⟩
    · have below : height ≤ g'.tip.height := by
        have ne : height.value ≠ block.height.value := fun same => top (Height.ext same)
        have le' : height.value ≤ block.height.value := le
        exact Height.le_def.mpr (by omega)
      rcases ih height below with durable | canonical
      · exact Or.inl durable
      · obtain ⟨hash, found⟩ := (moved.held held).bestBlockByHeight.mp canonical
        exact Or.inr ⟨hash, HashMap.lookup_insert_eq_some.mpr (Or.inr ⟨top, found⟩)⟩
  | @rewind g' next fork moved _ onBest rewound tip ih =>
    have held' := (moved.held held).rewindTo rewound tip
    intro height le
    rw [tip] at le
    rw [held'.bestBlockByHeight]
    have below : fork.height ≤ g'.tip.height :=
      (moved.held held).below_tip (of_decide_eq_true onBest)
    rcases ih height (Nat.le_trans le below) with durable | canonical
    · exact Or.inl durable
    · obtain ⟨hash, found⟩ := (moved.held held).bestBlockByHeight.mp canonical
      refine Or.inr ⟨hash, ?_⟩
      rcases MapBackedSnapshot.rewindTo_eq_ok rewound with ⟨_, rfl⟩ | ⟨newTip, _, _, _, rfl⟩
      · exact found
      · exact HashMap.lookup_retain_eq_some.mpr ⟨found, decide_eq_true le⟩
  | @trim g' floor moved keeps ih =>
    have held' := (moved.held held).removeFinalisedBlocks floor
    intro height le
    rw [held'.bestBlockByHeight]
    by_cases durable : Durable watermark height
    · exact Or.inl durable
    · have canonical := (ih height le).resolve_left durable
      obtain ⟨hash, found⟩ := (moved.held held).bestBlockByHeight.mp canonical
      exact Or.inr ⟨hash, MapBackedSnapshot.heightsToHashes_removeFinalisedBlocks.mpr
        ⟨found, Or.inl (keeps height durable)⟩⟩

/-- The floors a tick trims to keep everything above the watermark it read. -/
theorem TickEnv.TrimsTo.keepsAbove {env : TickEnv} {retentionMargin : Nat} {floor : Height}
    (trims : env.TrimsTo retentionMargin floor) :
    KeepsAbove (env.durable.map Committed.height) floor := by
  intro height volatile
  unfold TrimsTo at trims
  split at trims
  · rw [trims]
    exact Nat.zero_le _
  · next committed observed =>
    -- The retention margin only lowers the floor further.
    have below : floor.value ≤ committed.height.value - retentionMargin := trims
    by_contra above
    have durable : Durable (some committed.height) height := by
      refine notAbove_some.mpr fun height' same => ?_
      cases same
      have under : height.value < floor.value := Nat.lt_of_not_le above
      exact Height.le_def.mpr (by omega)
    rw [observed] at volatile
    exact volatile durable

/-! ## Runs -/

/-- Watermark publishes, with any token and any target, accepted or not. -/
abbrev WatermarkMoves : SeamState → SeamState → Prop :=
  Relation.ReflTransGen fun seam seam' =>
    ∃ authorisedBy target, seam' = (DurableWatermark.advance seam authorisedBy target).2

theorem advance_rises (seam : SeamState) (authorisedBy : Released) (target : Height) :
    NotAbove seam.watermarkHeight
      (DurableWatermark.advance seam authorisedBy target).2.watermarkHeight := by
  cases outcome : DurableWatermark.advance seam authorisedBy target with
  | mk result seam' =>
    cases result with
    | ok committed =>
      obtain ⟨rfl, rfl, _, rises⟩ := DurableWatermark.advance_eq_ok outcome
      exact rises
    | error fault =>
      rw [DurableWatermark.advance_eq_error outcome]
      exact .refl _

theorem WatermarkMoves.rises {seam seam' : SeamState} (moves : WatermarkMoves seam seam') :
    NotAbove seam.watermarkHeight seam'.watermarkHeight := by
  induction moves with
  | refl => exact .refl _
  | tail _ step ih =>
    obtain ⟨authorisedBy, target, rfl⟩ := step
    exact ih.trans (advance_rises _ authorisedBy target)

namespace ChainHeadService

/-- The durable tier publishes a watermark. -/
def watermarkAdvanced (service : ChainHeadService) (authorisedBy : Released) (target : Height) :
    ChainHeadService :=
  { service with seam := (DurableWatermark.advance service.seam authorisedBy target).2 }

/-- A service that was anchored, then ticked, while the durable tier published watermarks. -/
inductive Interleaved : ChainHeadService → Prop
  | anchored {service : ChainHeadService} (anchor : ChainHeadBlock) :
      service.current = .fromInitialBlock anchor → Interleaved service
  | tick {service : ChainHeadService} (env : TickEnv) : Interleaved service →
      Interleaved (service.tick env).service
  | advance {service : ChainHeadService} (authorisedBy : Released) (target : Height) :
      Interleaved service → Interleaved (service.watermarkAdvanced authorisedBy target)

theorem Interleaved.held {service : ChainHeadService} (interleaved : service.Interleaved) :
    service.current.Keyed ∧ service.current.Held := by
  induction interleaved with
  | anchored anchor atAnchor =>
    rw [atAnchor]
    exact ⟨MapBackedSnapshot.keyed_fromInitialBlock anchor,
      MapBackedSnapshot.held_fromInitialBlock anchor⟩
  | @tick service env _ ih =>
    cases outcome : (service.tick env).outcome with
    | error e => exact tick_error outcome ▸ ih
    | ok =>
      rcases tick_moved ih.1 outcome with same | ⟨_, _, started, next, current, start, moves⟩
      · rw [same]
        exact ih
      · have moved : Moved (fun _ => True) (fun _ => True) started next :=
          moves (fun _ _ _ _ _ => trivial) (fun _ _ => trivial) fun _ => trivial
        have startHeld : started.Keyed ∧ started.Held := by
          rcases start with rfl | ⟨block, _, rfl, _⟩
          · exact ih
          · exact ⟨MapBackedSnapshot.keyed_fromInitialBlock _,
              MapBackedSnapshot.held_fromInitialBlock _⟩
        rw [current]
        have held := moved.held startHeld.2
        exact ⟨moved.keyed startHeld.1, held.listed, held.below_tip⟩
  | advance authorisedBy target _ ih => exact ih

/-- A successful tick without a fresh anchor, or a watermark publish. The tick reads the watermark
while it runs, after any publishes since it started. -/
inductive SeamStep : ChainHeadService → ChainHeadService → Prop
  | tick {service : ChainHeadService} {observed : SeamState} (env : TickEnv) :
      WatermarkMoves service.seam observed → env.durable = observed.committed →
      (service.tick env).outcome = .ok () → (service.tick env).reanchored = false →
      SeamStep service (service.tick env).service
  | advance {service : ChainHeadService} (authorisedBy : Released) (target : Height) :
      SeamStep service (service.watermarkAdvanced authorisedBy target)

/-- The store and the published window cover every height up to the tip. -/
def Covered (service : ChainHeadService) : Prop :=
  Covers service.seam.watermarkHeight service.current

variable {service later : ChainHeadService}

theorem SeamStep.interleaved (step : SeamStep service later)
    (interleaved : service.Interleaved) : later.Interleaved := by
  cases step with
  | tick env _ _ _ _ => exact interleaved.tick env
  | advance authorisedBy target => exact interleaved.advance authorisedBy target

theorem SeamStep.covered (step : SeamStep service later)
    (interleaved : service.Interleaved) (covered : service.Covered) : later.Covered := by
  cases step with
  | advance authorisedBy target => exact Covers.mono (advance_rises _ authorisedBy target) covered
  | @tick observed env publishes observes ok kept =>
    obtain ⟨keyed, held⟩ := interleaved.held
    rcases tick_moved keyed ok with same | ⟨committed, _, started, next, current, start, moves⟩
    · rw [same]
      exact covered
    · have unanchored : started = service.current := by
        rcases start with same | ⟨_, _, _, reanchored⟩
        · exact same
        · rw [kept] at reanchored
          cases reanchored
      subst unanchored
      have watermark : (service.tick env).service.seam.watermarkHeight = observed.watermarkHeight := by
        rw [SeamState.watermarkHeight, committed, observes]
        rfl
      have moved : Moved (fun _ => True) (KeepsAbove observed.watermarkHeight) service.current next :=
        moves (fun _ _ _ _ _ => trivial) (fun _ _ => trivial) fun trims => by
          have keeps := trims.keepsAbove
          rw [observes] at keeps
          exact keeps
      have risen : Covers observed.watermarkHeight service.current :=
        Covers.mono publishes.rises covered
      rw [Covered, watermark, current]
      exact moved.covers held risen

/-- Once the store and the window cover every height from genesis to the published tip, they do so
after every interleaving of ticks that keep their anchor and watermark publishes. -/
theorem seam_stays_covered (interleaved : service.Interleaved)
    (covered : service.Covered) (run : Relation.ReflTransGen SeamStep service later) :
    later.Covered := by
  have both : later.Interleaved ∧ later.Covered := by
    induction run with
    | refl => exact ⟨interleaved, covered⟩
    | tail _ step ih => exact ⟨step.interleaved ih.1, step.covered ih.1 ih.2⟩
  exact both.2

/-- A window over genesis that reaches height 2, with nothing durable. -/
def genesisWindow : ChainHeadService :=
  ((sampleService (sampleBlock 20 10 0 1) 1).tick (sampleTick 2 Nat.two_pos
    [sampleServed 20 10 0 1, sampleServed 21 20 1 1, sampleServed 22 21 2 1])).service

/-- The next tick, once height 1 is durable. -/
def trimmingTick : TickEnv :=
  { sampleTick 2 Nat.two_pos [sampleServed 20 10 0 1, sampleServed 21 20 1 1,
      sampleServed 22 21 2 1, sampleServed 23 22 3 1] with
    durable := some ⟨⟨1, by decide⟩⟩ }

/-- Genesis leaves the window once height 1 is durable, and is still covered. -/
theorem seam_stays_covered_trimmed :
    let later := ((genesisWindow.watermarkAdvanced ⟨⟨1, by decide⟩, 21⟩ ⟨1, by decide⟩).tick
      trimmingTick).service
    later.current.bestBlockByHeight Height.genesis = none ∧ later.Covered := by
  intro later
  have interleaved : genesisWindow.Interleaved := .tick _ (.anchored _ rfl)
  have covered : genesisWindow.Covered := by
    intro height le
    refine Or.inr (interleaved.held.2.bestBlockByHeight.mpr ?_)
    have tip : genesisWindow.current.tip.height = ⟨2, by decide⟩ := by decide +kernel
    have entries : ∀ value : Fin 3, (genesisWindow.current.heightsToHashes.lookup
        ⟨value.val, Nat.le_trans (Nat.le_of_lt value.isLt) (by decide)⟩).isSome = true := by
      decide +kernel
    rw [tip] at le
    exact Option.isSome_iff_exists.mp (entries ⟨height.value, Nat.lt_succ_of_le le⟩)
  refine ⟨by decide +kernel, seam_stays_covered interleaved covered ?_⟩
  refine .tail (.single (.advance ⟨⟨1, by decide⟩, 21⟩ ⟨1, by decide⟩)) ?_
  exact .tick trimmingTick .refl (by decide +kernel) (by decide +kernel) (by decide +kernel)

end ChainHeadService

end Zaino.ChainHead
