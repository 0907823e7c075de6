import Zaino.ChainHead.AccumulatedWork

/-!
# Rollbacks

When the validator invalidates its top blocks, a tick finds the shorter tip and rewinds to it. The
abandoned blocks stay retained, and each of them has accumulated more work than the shorter tip below
them. The tick then moves to the heaviest retained block, which is never the validator's tip: a
rollback inside the window is undone by the tick that followed it (`rollback_never_followed`).
-/

namespace Zaino.ChainHead

open Zaino Library Finality Fallible

/-- The validator's best chain ends in `tip`, a canonical block of the window below its tip. A request
may fail, but what it serves is of that chain. -/
structure RolledBack (validator : Validator) (g : MapBackedSnapshot) (tip : ChainHeadBlock) :
    Prop where
  canonical : g.bestBlockByHeight tip.height = some tip
  shorter : tip.height < g.tip.height
  chainTip : ∀ requests answer, validator.getChainTip requests = some answer → answer = tip.reference
  ends : ∀ requests height block, tip.height < height →
    validator.getBlock requests height ≠ .found block
  serves : ∀ requests height block, validator.getBlock requests height = .found block →
    ∀ retained, g.bestBlockByHeight height = some retained → block.header.hash = retained.hash
  present : ∀ requests height, height ≤ tip.height → validator.getBlock requests height ≠ .absent

namespace TickEnv

variable {env : TickEnv} {g g' : MapBackedSnapshot} {s s' : TickState} {tip : ChainHeadBlock}

theorem blockAtHeight_absent {height : Height}
    (returned : (env.blockAtHeight height).Returns s none s') :
    env.validator.getBlock s.requests height = .absent := by
  obtain ⟨n, mid, asked, answered⟩ := returns_bind.mp returned
  obtain ⟨rfl, rfl⟩ := returns_request.mp asked
  cases answer : env.validator.getBlock s.requests height with
  | found block =>
    rw [answer] at answered
    exact nomatch (returns_pure.mp answered).1
  | absent => rfl
  | failed =>
    rw [answer] at answered
    exact (returns_fail.mp answered).elim

/-- Stepping down from above, a tick that succeeds reorganises onto the validator's tip. -/
theorem checkDown_rolledBack (rolled : RolledBack env.validator g tip) (apart : tip.hash ≠ g.tip.hash)
    {n : Nat} (bound : n ≤ maxHeight) (above : tip.height.value ≤ n)
    (returned : (env.checkDown g n bound).Returns s g' s') :
    ∃ block s₁, env.validator.Serves block ∧ block.header.hash = tip.hash ∧
      (env.handleReorg g (.fetched block)).Returns s₁ g' s' := by
  -- One height: either it lies above the validator's tip and nothing is served, or it is the tip's.
  have step : ∀ {target : Height} {below : TickM MapBackedSnapshot} {s : TickState},
      tip.height ≤ target → (env.checkAt g target below).Returns s g' s' →
      (∃ block s₁, env.validator.Serves block ∧ block.header.hash = tip.hash ∧
        (env.handleReorg g (.fetched block)).Returns s₁ g' s') ∨
      (tip.height < target ∧ ∃ s₁, below.Returns s₁ g' s') := by
    intro target below s le returned
    unfold checkAt at returned
    split at returned
    · exact (returns_fail.mp returned).elim
    · obtain ⟨answer, mid, asked, continued⟩ := returns_bind.mp returned
      split at continued
      · next block =>
        have served := (blockAtHeight_returns asked).2 block rfl
        have atTip : target = tip.height := by
          by_contra elsewhere
          have higher : tip.height < target :=
            Nat.lt_of_le_of_ne le fun same => elsewhere (Height.ext same.symm)
          exact rolled.ends _ _ block higher served
        have hash : block.header.hash = tip.hash :=
          rolled.serves _ _ block served tip (atTip ▸ rolled.canonical)
        have differs : block.header.hash ≠ g.bestTip.hash := hash ▸ apart
        rw [if_pos differs] at continued
        exact Or.inl ⟨block, mid, .atHeight served, hash, continued⟩
      · refine Or.inr ⟨?_, mid, continued⟩
        by_contra notAbove
        exact rolled.present _ target (Nat.le_of_not_lt notAbove) (blockAtHeight_absent asked)
  induction n generalizing s with
  | zero =>
    rcases step (Height.le_def.mpr above) returned with reorganised | ⟨lt, _⟩
    · exact reorganised
    · exact absurd (Height.lt_def.mp lt) (Nat.not_lt_zero _)
  | succ n ih =>
    rcases step (Height.le_def.mpr above) returned with reorganised | ⟨lt, s₁, lower⟩
    · exact reorganised
    · exact ih _ (Nat.le_of_lt_succ (Height.lt_def.mp lt)) lower

/-- A successful tick over a rollback reorganises onto the shorter tip, trims, and then moves to the
heaviest retained block. -/
theorem nextGraph_rolledBack (rolled : RolledBack env.validator g tip) (apart : tip.hash ≠ g.tip.hash)
    (returned : (env.nextGraph g tip.height).Returns s g' s') :
    ∃ block reorganised caught floor s₁ s₂ s₃ s₄, env.validator.Serves block ∧
      block.header.hash = tip.hash ∧
      (env.handleReorg g (.fetched block)).Returns s₁ reorganised s₂ ∧
      floor ≤ reorganised.tip.height ∧ caught = reorganised.removeFinalisedBlocks floor ∧
      (env.switchToHeaviest caught).Returns s₃ g' s₄ := by
  have lower : tip.height.value < g.tip.height.value := rolled.shorter
  obtain ⟨caught, s₄, caughtUp, returned⟩ := returns_bind.mp returned
  obtain ⟨_, s₅, published, switched⟩ := returns_bind.mp returned
  obtain ⟨started, s₁, start, caughtUp⟩ := returns_bind.mp caughtUp
  obtain ⟨extended, s₂, extend, caughtUp⟩ := returns_bind.mp caughtUp
  obtain ⟨checked, s₃, check, trimmed⟩ := returns_bind.mp caughtUp
  -- The window is not further behind than the shorter tip, so nothing is fetched above it.
  have same : started = g := by
    unfold startingGraph at start
    rw [if_neg] at start
    · exact (returns_pure.mp start).1.symm
    · intro behind
      have behind' : g.tip.height.value < tip.height.value - env.config.maxDepth := behind
      omega
  subst same
  have unextended : extended = started := by
    cases fuel : env.fuel with
    | zero =>
      rw [fuel] at extend
      exact (returns_fail.mp extend).elim
    | succ fuel =>
      rw [fuel, extendTo, if_neg] at extend
      · exact (returns_pure.mp extend).1.symm
      · intro behind
        have behind' : started.tip.height.value < tip.height.value := behind
        omega
  subst unextended
  obtain ⟨block, s₆, serves, hash, reorganised⟩ :=
    checkDown_rolledBack rolled apart _ (Nat.le_of_lt lower) check
  obtain ⟨floor, le, _, trim, _⟩ := trim_returns trimmed
  exact ⟨block, checked, caught, floor, s₆, s₃, s₅, s', serves, hash, reorganised, le, trim, switched⟩

end TickEnv

/-- The tick of a rollback publishes a block heavier than the validator's tip. -/
theorem TickEnv.nextGraph_heavier {env : TickEnv} {identity : HeaderIdentity} {anchor : BlockHash}
    {g g' : MapBackedSnapshot} {tip : ChainHeadBlock} {s s' : TickState}
    (works : WorksFrom identity anchor g) (respects : env.validator.Respects identity)
    (rolled : RolledBack env.validator g tip)
    (returned : (env.nextGraph g tip.height).Returns s g' s') : g'.bestTip ≠ tip.reference := by
  obtain ⟨tipHash, tipListed, tipRetained⟩ := Option.bind_eq_some_iff.mp rolled.canonical
  obtain ⟨tipWork, atHash⟩ := works.accumulates tipRetained
  have apart : tip.hash ≠ g.tip.hash := by
    rw [atHash]
    refine works.represents.hash_ne_of_height_ne tipListed works.represents.tip_listed fun same => ?_
    exact absurd (Height.lt_def.mp rolled.shorter) (same ▸ Nat.lt_irrefl _)
  obtain ⟨block, reorganised, caught, floor, s₁, s₂, s₃, s₄, serves, hash, walked, le, rfl, switched⟩ :=
    nextGraph_rolledBack rolled apart returned
  have admitted : (BranchBlock.fetched block).Admitted env.validator (Accumulates identity anchor) :=
    serves
  have moved : Moved (Accumulates identity anchor) (fun _ => False) g reorganised :=
    handleReorg_moved (Accumulates.inherited respects) works.keyed works.works admitted walked
  have works₁ : WorksFrom identity anchor reorganised := works.moved moved
  obtain ⟨_, _, reorg⟩ := handleReorg_returns works.keyed walked
  have reached : reorganised.tip.hash = tip.hash :=
    (congrArg BlockRef.hash reorg.tip_becomes.1).trans hash
  have reachedWork : reorganised.tip.work.value = tip.work.value :=
    (works₁.works _ List.mem_cons_self).work_eq tipWork reached
  -- The abandoned tip is retained through the reorg and lies above every floor.
  obtain ⟨old, retained⟩ := Option.isSome_iff_exists.mp (moved.blockByHash_isSome
    (Option.isSome_iff_exists.mpr ⟨g.tip, Representation.blockByHash_tip⟩))
  obtain ⟨oldWork, oldHash⟩ := works₁.accumulates retained
  have tipAccumulates := works.works g.tip List.mem_cons_self
  have abandoned : old.work.value = g.tip.work.value := oldWork.work_eq tipAccumulates oldHash
  have heavier : tip.work.value < g.tip.work.value := by
    refine works.work_lt_of_height_lt rolled.canonical ?_ rolled.shorter
    exact Option.bind_eq_some_iff.mpr
      ⟨_, works.represents.tip_listed, Representation.blockByHash_tip⟩
  have kept : old ∈ (reorganised.removeFinalisedBlocks floor).blocks := by
    refine MapBackedSnapshot.mem_blocks_of_blockByHash
      (MapBackedSnapshot.blockByHash_removeFinalisedBlocks.mpr ⟨retained, Or.inl ?_⟩)
    have oldHeight : old.height = g.tip.height := by
      rw [oldWork.described.1, oldHash, ← tipAccumulates.described.1]
    have reachedHeight : reorganised.tip.height = tip.height := by
      rw [(works₁.works _ List.mem_cons_self).described.1, reached, ← tipWork.described.1]
    rw [reachedHeight] at le
    rw [oldHeight]
    exact Nat.le_trans le (Nat.le_of_lt rolled.shorter)
  have heaviest := (MapBackedSnapshot.heaviestBlock_spec
    (reorganised.removeFinalisedBlocks floor) env.visit)
  have works₂ : WorksFrom identity anchor (reorganised.removeFinalisedBlocks floor) :=
    ⟨works₁.represents.removeFinalisedBlocks floor, works₁.works.removeFinalisedBlocks floor⟩
  have bound := heaviest.2 old kept
  rcases (switchToHeaviest_returns works₂.keyed switched).2 with ⟨light, _, _⟩ | ⟨_, _, final⟩
  · have caughtWork : (reorganised.removeFinalisedBlocks floor).tip.work.value = tip.work.value :=
      reachedWork
    omega
  · intro followed
    have becomes : g'.tip = (reorganised.removeFinalisedBlocks floor).heaviestBlock env.visit :=
      final.tip_becomes
    have sameHash : ((reorganised.removeFinalisedBlocks floor).heaviestBlock env.visit).hash =
        tip.hash := becomes ▸ congrArg BlockRef.hash followed
    have sameWork := (works₂.works _ heaviest.1).work_eq tipWork sameHash
    omega

/-- A tick that succeeds over a rollback inside the window never publishes the validator's tip. -/
theorem rollback_never_followed {identity : HeaderIdentity} {service : ChainHeadService}
    {env : TickEnv} {tip : ChainHeadBlock}
    (reachable : ChainHeadService.ReachableUnder identity service)
    (respects : env.validator.Respects identity)
    (rolled : RolledBack env.validator service.current tip)
    (ok : (service.tick env).outcome = .ok ()) :
    (service.tick env).service.current.bestTip ≠ tip.reference := by
  obtain ⟨anchor, works⟩ := reachable.worksFrom
  obtain ⟨answer, served, held | ⟨_, next, s, built, published, _⟩⟩ := ChainHeadService.tick_ok ok
  · -- The validator's tip lies below the one held.
    have same : tip.reference = service.current.bestTip :=
      (rolled.chainTip _ _ served).symm.trans held.1
    have height : tip.height = service.current.tip.height := congrArg BlockRef.height same
    exact absurd (Height.lt_def.mp rolled.shorter) (height ▸ Nat.lt_irrefl _)
  · rw [rolled.chainTip _ _ served] at built
    have heavier : next.bestTip ≠ tip.reference :=
      TickEnv.nextGraph_heavier works respects rolled built
    rw [published]
    exact heavier

/-- The first two blocks of the chain that the sample service follows. -/
def shortenedChain : List Block := sampleChain.take 2

/-- A validator that has invalidated the top block of that chain. -/
def shortened : TickEnv := sampleDeepTick shortenedChain

/-- The block it has rolled back to. -/
def shortenedTip : ChainHeadBlock :=
  retainedAs (sampleServed 21 20 1 1) ⟨2, by decide⟩

theorem shortened_rolledBack : RolledBack shortened.validator sampleFollowed.current shortenedTip := by
  have canonical : sampleFollowed.current.bestBlockByHeight ⟨1, by decide⟩ = some shortenedTip := by
    decide +kernel
  have genesis : sampleFollowed.current.bestBlockByHeight ⟨0, by decide⟩ =
      some (anchorOf sampleGenesis) := by
    decide +kernel
  -- The validator serves heights 0 and 1 and nothing else.
  have answers : ∀ requests height, shortened.validator.getBlock requests height =
      if height = ⟨0, by decide⟩ then .found sampleGenesis
      else if height = ⟨1, by decide⟩ then .found (sampleServed 21 20 1 1) else .absent := by
    intro requests height
    by_cases zero : height = ⟨0, by decide⟩
    · rw [zero]
      rfl
    · by_cases one : height = ⟨1, by decide⟩
      · rw [one]
        rfl
      · rw [if_neg zero, if_neg one]
        have none_found : (shortenedChain.find? fun block => block.header.height = height) = none := by
          refine List.find?_eq_none.mpr fun block member found => ?_
          have height_eq := of_decide_eq_true found
          simp only [shortenedChain, sampleChain, List.take, List.mem_cons, List.not_mem_nil,
            or_false] at member
          rcases member with rfl | rfl
          · exact zero height_eq.symm
          · exact one height_eq.symm
        exact congrArg Answer.ofOption none_found
  refine ⟨canonical, by decide +kernel, fun _ answer tip => ?_, fun requests height block above => ?_,
    fun requests height block served retained held => ?_, fun requests height below => ?_⟩
  · exact (Option.some.inj tip).symm
  · have above' : 1 < height.value := above
    rw [answers, if_neg, if_neg]
    · rintro ⟨⟩
    · rintro rfl
      exact absurd above' (by decide)
    · rintro rfl
      exact absurd above' (by decide)
  · rw [answers] at served
    split at served
    · next zero =>
      cases served
      rw [zero, genesis] at held
      cases held
      rfl
    · split at served
      · next one =>
        cases served
        rw [one, canonical] at held
        cases held
        rfl
      · cases served
  · have below' : height.value ≤ 1 := below
    rw [answers]
    split
    · rintro ⟨⟩
    · next notZero =>
      rw [if_pos]
      · rintro ⟨⟩
      · have nonzero : height.value ≠ 0 := fun same => notZero (Height.ext same)
        exact Height.ext (by change height.value = 1; omega)

theorem sampleFollowed_reachable : ChainHeadService.ReachableUnder sampleIdentity sampleFollowed :=
  .tick _ (.anchored sampleGenesis (sampleChain_commits _ List.mem_cons_self) rfl)
    (sampleValidator_respects sampleChain_commits)

/-- The rolled-back tick succeeds and does not publish the shorter tip. -/
theorem rollback_never_followed_shortened : (sampleFollowed.tick shortened).outcome = .ok () ∧
      (sampleFollowed.tick shortened).service.current.bestTip ≠ shortenedTip.reference := by
  have ok : (sampleFollowed.tick shortened).outcome = .ok () := by decide +kernel
  refine ⟨ok, rollback_never_followed sampleFollowed_reachable (sampleValidator_respects ?_)
    shortened_rolledBack ok⟩
  exact fun block member => sampleChain_commits block (List.mem_of_mem_take member)

/-- The validator has gone back from height 2 to height 1. The tick succeeds, and the block that the
validator invalidated is published as the tip again. -/
theorem rollback_reverted : ChainHeadService.ReachableUnder sampleIdentity sampleFollowed ∧
      RolledBack shortened.validator sampleFollowed.current shortenedTip ∧
      (sampleFollowed.tick shortened).outcome = .ok () ∧
      (sampleFollowed.tick shortened).service.current.bestTip = ⟨22, ⟨2, by decide⟩⟩ ∧
      shortenedTip.reference = ⟨21, ⟨1, by decide⟩⟩ :=
  ⟨sampleFollowed_reachable, shortened_rolledBack, by decide +kernel, by decide +kernel, rfl⟩

end Zaino.ChainHead
