import Zaino.ChainHead.Walk

/-!
# What a tick does to the window

`Evolves` lists the ways in which a tick changes its graph: it extends the tip, reorganises,
trims, starts over from a fresh anchor, and releases a horizon in passing. Every successful phase
of `nextGraph` is such an evolution, with the tick's log as its label (`nextGraph_evolves`), so an
invariant of the window is proved once per kind of step.
-/

namespace Zaino.ChainHead

open Zaino Library Finality Fallible

/-- A window's evolution, labelled by the events logged. `depth` is the seam's reorg depth. -/
inductive Evolves (validator : Validator) (depth : Nat) :
    MapBackedSnapshot → List TickEvent → MapBackedSnapshot → Prop
  | refl {g} : Evolves validator depth g [] g
  | extend {g next events g' block} : g.extend block = (.ok (), next) →
      Evolves validator depth next events g' → Evolves validator depth g events g'
  | reorganise {g next events g' block requests} :
      Reorganised validator g requests block next → Evolves validator depth next events g' →
      Evolves validator depth g (.walked g block.parentHash requests :: events) g'
  | trim {g events g'} (floor : Height) :
      Evolves validator depth (g.removeFinalisedBlocks floor) events g' →
      Evolves validator depth g events g'
  | reanchor {g events g'} (anchor : ChainHeadBlock) :
      Evolves validator depth (.fromInitialBlock anchor) events g' →
      Evolves validator depth g (.reanchored :: events) g'
  | release {g events g' horizon requests} :
      horizon.height = heightBelow g.tip.height depth →
      g.heightsToHashes.lookup horizon.height = some horizon.hash →
      Evolves validator depth g events g' →
      Evolves validator depth g (.released horizon g requests :: events) g'

namespace Evolves

variable {validator : Validator} {depth : Nat} {g g' : MapBackedSnapshot}
  {events : List TickEvent}

theorem trans {g'' : MapBackedSnapshot} {events' : List TickEvent}
    (first : Evolves validator depth g events g') (second : Evolves validator depth g' events' g'') :
    Evolves validator depth g (events ++ events') g'' := by
  induction first with
  | refl => exact second
  | extend extended _ ih => exact .extend extended (ih second)
  | reorganise reorganised _ ih => exact .reorganise reorganised (ih second)
  | trim floor _ ih => exact .trim floor (ih second)
  | reanchor anchor _ ih => exact .reanchor anchor (ih second)
  | release atDepth listed _ ih => exact .release atDepth listed (ih second)

theorem keyed (evolves : Evolves validator depth g events g') (keyed : g.Keyed) : g'.Keyed := by
  induction evolves with
  | refl => exact keyed
  | extend extended _ ih => exact ih (keyed.extend extended)
  | reorganise reorganised _ ih => exact ih reorganised.keyed
  | trim floor _ ih => exact ih (keyed.removeFinalisedBlocks floor)
  | reanchor anchor _ ih => exact ih (MapBackedSnapshot.keyed_fromInitialBlock anchor)
  | release _ _ _ ih => exact ih keyed

end Evolves

/-- An event that leaves the horizon alone. -/
def TickEvent.Unreleased : TickEvent → Prop
  | .released .. => False
  | _ => True

/-- A phase of a tick: it evolved the window without touching the seam's depths or horizon. -/
structure Phase (validator : Validator) (depth : Nat) (g : MapBackedSnapshot) (s : TickState)
    (g' : MapBackedSnapshot) (s' : TickState) : Prop where
  seam : s'.seam.depths = s.seam.depths ∧ s'.seam.released = s.seam.released
  evolves : ∃ events, s'.log = s.log ++ events ∧ Evolves validator depth g events g' ∧
    ∀ event ∈ events, event.Unreleased

namespace Phase

variable {validator : Validator} {depth : Nat} {g g' g'' : MapBackedSnapshot}
  {s s' s'' : TickState}

theorem trans (first : Phase validator depth g s g' s') (second : Phase validator depth g' s' g'' s'') :
    Phase validator depth g s g'' s'' := by
  obtain ⟨events, log, evolves, quiet⟩ := first.evolves
  obtain ⟨events', log', evolves', quiet'⟩ := second.evolves
  refine ⟨⟨second.seam.1.trans first.seam.1, second.seam.2.trans first.seam.2⟩,
    events ++ events', ?_, evolves.trans evolves', ?_⟩
  · rw [log', log, List.append_assoc]
  · intro event member
    rcases List.mem_append.mp member with early | late
    · exact quiet event early
    · exact quiet' event late

theorem keyed (phase : Phase validator depth g s g' s') (keyed : g.Keyed) : g'.Keyed := by
  obtain ⟨_, _, evolves, _⟩ := phase.evolves
  exact evolves.keyed keyed

theorem of_onlyRequests (requests : s.OnlyRequests s') (evolves : Evolves validator depth g [] g') :
    Phase validator depth g s g' s' :=
  ⟨⟨congrArg _ requests.1, congrArg _ requests.1⟩, [], by simp [requests.2], evolves, by simp⟩

end Phase

/-- A relation of graphs and states that the steps of a tick lie in, on graphs that are `Good`: making
requests lies in it, and so do the two ways of taking in a served block. -/
structure Traversal (env : TickEnv) (Good : MapBackedSnapshot → Prop)
    (Rel : MapBackedSnapshot → TickState → MapBackedSnapshot → TickState → Prop) : Prop where
  good {g s g' s'} : Rel g s g' s' → Good g → Good g'
  trans {g s g' s' g'' s''} : Rel g s g' s' → Rel g' s' g'' s'' → Rel g s g'' s''
  requests {g s s'} : s.OnlyRequests s' → Rel g s g s'
  extend {g s g' s' block built} : Good g → env.validator.Serves block →
    (env.blockToChainblock g.tip block).Returns s built s' → g.extend built = (.ok (), g') →
    Rel g s g' s'
  reorganise {g s g' s' block} : Good g → env.validator.Serves block →
    (env.handleReorg g (.fetched block)).Returns s g' s' → Rel g s g' s'

namespace Traversal

variable {env : TickEnv} {Good : MapBackedSnapshot → Prop}
  {Rel : MapBackedSnapshot → TickState → MapBackedSnapshot → TickState → Prop}
  {g g' : MapBackedSnapshot} {s s' : TickState} (traversal : Traversal env Good Rel) (good : Good g)

include traversal good

theorem extendTo {chainHeight : Height} {fuel : Nat}
    (returned : (env.extendTo chainHeight fuel g).Returns s g' s') : Rel g s g' s' := by
  induction fuel generalizing g s with
  | zero => exact (returns_fail.mp returned).elim
  | succ fuel ih =>
    unfold TickEnv.extendTo at returned
    split at returned
    · obtain ⟨answer, mid, asked, continued⟩ := returns_bind.mp returned
      obtain ⟨requests, served⟩ := TickEnv.blockAtHeight_returns asked
      split at continued
      · obtain ⟨rfl, rfl⟩ := returns_pure.mp continued
        exact traversal.requests requests
      · next block =>
        obtain ⟨next, mid', applied, rest⟩ := returns_bind.mp continued
        have serves : env.validator.Serves block := .atHeight (served block rfl)
        have step : Rel g mid next mid' := by
          unfold TickEnv.applyServed at applied
          split at applied
          · obtain ⟨chainblock, _, built, accepted⟩ := returns_bind.mp applied
            obtain ⟨extended, rfl⟩ := TickEnv.accept_returns accepted
            exact traversal.extend good serves built extended
          · exact traversal.reorganise good serves applied
        exact traversal.trans (traversal.requests requests)
          (traversal.trans step (ih (traversal.good step good) rest))
    · obtain ⟨rfl, rfl⟩ := returns_pure.mp returned
      exact traversal.requests ⟨rfl, rfl⟩

theorem checkAt {target : Height} {below : TickM MapBackedSnapshot}
    (stepDown : ∀ {s s'}, below.Returns s g' s' → Rel g s g' s')
    (returned : (env.checkAt g target below).Returns s g' s') : Rel g s g' s' := by
  unfold TickEnv.checkAt at returned
  split at returned
  · exact (returns_fail.mp returned).elim
  · obtain ⟨answer, mid, asked, continued⟩ := returns_bind.mp returned
    obtain ⟨requests, served⟩ := TickEnv.blockAtHeight_returns asked
    refine traversal.trans (traversal.requests requests) ?_
    split at continued
    · next block =>
      split at continued
      · exact traversal.reorganise good (.atHeight (served block rfl)) continued
      · obtain ⟨rfl, rfl⟩ := returns_pure.mp continued
        exact traversal.requests ⟨rfl, rfl⟩
    · exact stepDown continued

theorem checkForNonhigherReorgs
    (returned : (env.checkForNonhigherReorgs g).Returns s g' s') : Rel g s g' s' := by
  have down : ∀ (n : Nat) (bound : n ≤ maxHeight) {s s'},
      (env.checkDown g n bound).Returns s g' s' → Rel g s g' s' := by
    intro n
    induction n with
    | zero =>
      intro bound s s' returned
      refine traversal.checkAt good (fun pure => ?_) returned
      obtain ⟨rfl, rfl⟩ := returns_pure.mp pure
      exact traversal.requests ⟨rfl, rfl⟩
    | succ n ih =>
      intro bound s s' returned
      exact traversal.checkAt good (fun below => ih _ below) returned
  exact down _ _ returned

end Traversal

namespace TickEnv

variable {env : TickEnv} {depth : Nat} {g g' : MapBackedSnapshot} {s s' : TickState}
  {chainHeight : Height}

theorem handleReorg_phase {block : BranchBlock} (keyed : g.Keyed)
    (returned : (env.handleReorg g block).Returns s g' s') :
    Phase env.validator depth g s g' s' := by
  obtain ⟨seam, log, reorganised⟩ := handleReorg_returns keyed returned
  exact ⟨⟨congrArg _ seam, congrArg _ seam⟩, _, log, .reorganise reorganised .refl,
    by simp [TickEvent.Unreleased]⟩

/-- The phases of a tick evolve its window. -/
theorem phase_traversal : Traversal env MapBackedSnapshot.Keyed (Phase env.validator depth) where
  good phase keyed := phase.keyed keyed
  trans := .trans
  requests requests := .of_onlyRequests requests .refl
  extend _ _ built extended :=
    .of_onlyRequests (blockToChainblock_returns built).1 (.extend extended .refl)
  reorganise keyed _ returned := handleReorg_phase keyed returned

/-- The window a tick builds on: the published one, or a fresh anchor that the validator served. -/
theorem startingGraph_cases (returned : (env.startingGraph g chainHeight).Returns s g' s') :
    (g' = g ∧ s' = s) ∨ ∃ block, env.validator.Serves block ∧
      g' = .fromInitialBlock (anchorOf block) ∧ s'.seam = s.seam ∧
      s'.log = s.log ++ [.reanchored] := by
  unfold startingGraph at returned
  dsimp only at returned
  split at returned
  · obtain ⟨anchor, mid, resolved, recorded⟩ := returns_bind.mp returned
    obtain ⟨_, mid', logged, same⟩ := returns_bind.mp recorded
    obtain rfl := returns_modify.mp logged
    obtain ⟨rfl, rfl⟩ := returns_pure.mp same
    obtain ⟨answer, asked', served, built⟩ := returns_bind.mp resolved
    split at built
    · exact (returns_fail.mp built).elim
    · next block =>
      obtain ⟨_, asked'', roots, built⟩ := returns_bind.mp built
      obtain ⟨rfl, work, accumulated, rfl⟩ := chainHeadBlock_returns built
      cases accumulated
      obtain ⟨requests, serves⟩ := blockAtHeight_returns served
      obtain ⟨seam, log⟩ := requests.trans (treeRoots_returns roots)
      refine Or.inr ⟨block, .atHeight (serves block rfl), rfl, seam, ?_⟩
      rw [← log]
  · obtain ⟨rfl, rfl⟩ := returns_pure.mp returned
    exact Or.inl ⟨rfl, rfl⟩

theorem startingGraph_phase (returned : (env.startingGraph g chainHeight).Returns s g' s') :
    Phase env.validator depth g s g' s' := by
  rcases startingGraph_cases returned with ⟨rfl, rfl⟩ | ⟨block, _, rfl, seam, log⟩
  · exact .of_onlyRequests ⟨rfl, rfl⟩ .refl
  · exact ⟨⟨congrArg _ seam, congrArg _ seam⟩, [.reanchored], log, .reanchor _ .refl,
      by simp [TickEvent.Unreleased]⟩

/-- A floor that a tick may trim to: genesis while the durable tier holds nothing, and no higher than
the watermark less the retention margin otherwise. -/
def TrimsTo (env : TickEnv) (retentionMargin : Nat) (floor : Height) : Prop :=
  match env.durable with
  | none => floor = Height.genesis
  | some committed => floor ≤ committed.height.saturatingSub retentionMargin

theorem trim_returns (returned : (env.trim g).Returns s g' s') :
    ∃ floor, floor ≤ g.tip.height ∧ env.TrimsTo s.seam.depths.retentionMargin floor ∧
      g' = g.removeFinalisedBlocks floor ∧
      s' = { s with seam := { s.seam with committed := env.durable } } := by
  obtain ⟨_, mid, observed, trimmed⟩ := returns_bind.mp returned
  obtain rfl := returns_modify.mp observed
  obtain ⟨_, _, read, same⟩ := returns_bind.mp trimmed
  obtain ⟨rfl, rfl⟩ := returns_get.mp read
  obtain ⟨rfl, rfl⟩ := returns_pure.mp same
  refine ⟨_, ?_, ?_, rfl, rfl⟩
  · split
    · rw [Height.le_def, Height.min_value]
      exact Nat.le_trans (Nat.min_le_left _ _) (Nat.sub_le _ _)
    · exact Nat.zero_le _
  · unfold TrimsTo
    cases held : env.durable with
    | none => rfl
    | some committed =>
      change Height.min _ _ ≤ _
      rw [Height.le_def, Height.min_value]
      exact Nat.min_le_right _ _

theorem trim_phase (returned : (env.trim g).Returns s g' s') :
    Phase env.validator depth g s g' s' := by
  obtain ⟨floor, _, _, rfl, rfl⟩ := trim_returns returned
  exact ⟨⟨rfl, rfl⟩, [], by simp, .trim floor .refl, by simp⟩

theorem caughtUp_phase (keyed : g.Keyed) (returned : (env.caughtUp g chainHeight).Returns s g' s') :
    Phase env.validator depth g s g' s' := by
  obtain ⟨started, s₁, start, returned⟩ := returns_bind.mp returned
  obtain ⟨extended, s₂, extend, returned⟩ := returns_bind.mp returned
  obtain ⟨checked, s₃, check, trimmed⟩ := returns_bind.mp returned
  have first : Phase env.validator depth g s started s₁ := startingGraph_phase start
  have second : Phase env.validator depth started s₁ extended s₂ :=
    phase_traversal.extendTo (first.keyed keyed) extend
  have third : Phase env.validator depth extended s₂ checked s₃ :=
    phase_traversal.checkForNonhigherReorgs (second.keyed (first.keyed keyed)) check
  exact first.trans (second.trans (third.trans (trim_phase trimmed)))

end TickEnv

end Zaino.ChainHead
