import Zaino.ChainHead.Evolution

/-!
# Released horizons

What a released horizon promises about the window. A tick publishes its horizon before it moves
to the heaviest retained branch, so the horizon it released describes the snapshot it goes on to
publish only under a condition on the graph at that moment (`released_horizon_iff`). Across ticks,
a horizon stays true as long as every reorg walk joins the canonical chain at or above it
(`releases_irrevocable`); a walk may join one block below it (`release_revoked`).
-/

namespace Zaino.ChainHead

open Zaino Library Finality List Fallible TickEnv Fallible.Keeps Option ChainHeadService ReorgHorizon

/-! ## One tick -/

theorem publishHorizon_returns {g : MapBackedSnapshot} {s s' : TickState} {u : Unit}
    (returned : (publishHorizon g).Returns s u s') :
    s'.requests = s.requests ∧ s'.seam.depths = s.seam.depths ∧
      s'.seam.committed = s.seam.committed ∧
      (s'.log = s.log ∨ ∃ horizon block, s'.log = s.log ++ [.released horizon g s.requests] ∧
        s'.seam.released = some horizon ∧
        horizon.height = heightBelow g.tip.height s.seam.depths.reorg ∧
        g.bestBlockByHeight horizon.height = some block ∧ block.hash = horizon.hash) := by
  obtain ⟨_, _, read, published⟩ := returns_bind.mp returned
  obtain ⟨rfl, rfl⟩ := returns_get.mp read
  dsimp only at published
  split at published
  · obtain ⟨_, rfl⟩ := returns_pure.mp published
    exact ⟨rfl, rfl, rfl, Or.inl rfl⟩
  · next hash canonical =>
    obtain ⟨block, found, rfl⟩ := map_eq_some_iff.mp canonical
    split at published
    · next released seam accepted =>
      obtain ⟨_, mid, updated, recorded⟩ := returns_bind.mp published
      obtain rfl := returns_modify.mp updated
      obtain rfl := returns_modify.mp recorded
      obtain ⟨rfl, rfl, _⟩ := advance_eq_ok accepted
      exact ⟨rfl, rfl, rfl, Or.inr ⟨_, block, rfl, rfl, rfl, found, rfl⟩⟩
    · next fault seam rejected =>
      obtain rfl := advance_eq_error rejected
      obtain rfl := returns_modify.mp published
      exact ⟨rfl, rfl, rfl, Or.inl rfl⟩

namespace TickEnv

variable {env : TickEnv} {g next : MapBackedSnapshot} {s s' : TickState}

theorem switchToHeaviest_returns (keyed : g.Keyed)
    (returned : (env.switchToHeaviest g).Returns s next s') : s'.seam = s.seam ∧
      (((g.heaviestBlock env.visit).work.value ≤ g.tip.work.value ∧ next = g ∧ s'.log = s.log) ∨
        (g.tip.work.value < (g.heaviestBlock env.visit).work.value ∧
          s'.log = s.log ++ [.walked g (g.heaviestBlock env.visit).parentHash s.requests] ∧
          Reorganised env.validator g s.requests (.retained (g.heaviestBlock env.visit)) next)) := by
  unfold switchToHeaviest at returned
  dsimp only at returned
  split at returned
  · next heavier =>
    obtain ⟨seam, log, reorganised⟩ := handleReorg_returns keyed returned
    exact ⟨seam, Or.inr ⟨heavier, log, reorganised⟩⟩
  · next notHeavier =>
    obtain ⟨rfl, rfl⟩ := returns_pure.mp returned
    exact ⟨rfl, Or.inl ⟨Nat.le_of_not_lt notHeavier, rfl, rfl⟩⟩

/-- A successful `nextGraph` in its three parts: the window is brought up to date, its horizon is
published, and the heaviest branch is taken. -/
theorem nextGraph_returns {chainHeight : Height} (keyed : g.Keyed)
    (returned : (env.nextGraph g chainHeight).Returns s next s') :
    ∃ caught s₁ s₂, Phase env.validator s.seam.depths.reorg g s caught s₁ ∧
      (publishHorizon caught).Returns s₁ () s₂ ∧
      (env.switchToHeaviest caught).Returns s₂ next s' := by
  obtain ⟨caught, s₁, caughtUp, published⟩ := returns_bind.mp returned
  obtain ⟨_, s₂, publish, switched⟩ := returns_bind.mp published
  exact ⟨caught, s₁, s₂, caughtUp_phase keyed caughtUp, publish, switched⟩

theorem nextGraph_evolves {chainHeight : Height} (keyed : g.Keyed)
    (returned : (env.nextGraph g chainHeight).Returns s next s') :
    s'.seam.depths = s.seam.depths ∧ ∃ events, s'.log = s.log ++ events ∧
      Evolves env.validator s.seam.depths.reorg g events next := by
  obtain ⟨caught, s₁, s₂, phase, published, switched⟩ := nextGraph_returns keyed returned
  obtain ⟨early, log₁, evolves₁, _⟩ := phase.evolves
  have caughtKeyed := evolves₁.keyed keyed
  obtain ⟨_, depths₂, _, publish⟩ := publishHorizon_returns published
  obtain ⟨seam₃, switch⟩ := switchToHeaviest_returns caughtKeyed switched
  obtain ⟨middle, log₂, evolves₂⟩ : ∃ middle, s₂.log = s₁.log ++ middle ∧
      Evolves env.validator s.seam.depths.reorg caught middle caught := by
    rcases publish with log | ⟨horizon, block, log, _, atDepth, canonical, atHash⟩
    · exact ⟨[], by simp [log], .refl⟩
    · refine ⟨_, log, .release (by rw [atDepth, phase.seam.1]) ?_ .refl⟩
      rw [← atHash]
      exact caughtKeyed.bestBlockByHeight canonical
  obtain ⟨late, log₃, evolves₃⟩ : ∃ late, s'.log = s₂.log ++ late ∧
      Evolves env.validator s.seam.depths.reorg caught late next := by
    rcases switch with ⟨_, rfl, log⟩ | ⟨_, log, reorganised⟩
    · exact ⟨[], by simp [log], .refl⟩
    · exact ⟨_, log, .reorganise reorganised .refl⟩
  refine ⟨by rw [seam₃, depths₂, phase.seam.1], early ++ (middle ++ late), ?_,
    evolves₁.trans (evolves₂.trans evolves₃)⟩
  rw [log₃, log₂, log₁, append_assoc, append_assoc]

/-- A successful `advance` has read the validator's tip: it is the tip held, or a graph was built for
it. -/
theorem advance_returns {outcome : Option MapBackedSnapshot}
    (returned : (env.advance g).Returns s outcome s') :
    ∃ tip, env.validator.getChainTip s.requests = some tip ∧
      ((tip = g.bestTip ∧ outcome = none ∧ s' = { s with requests := s.requests + 1 }) ∨
        (tip ≠ g.bestTip ∧ ∃ next, outcome = some next ∧
          (env.nextGraph g tip.height).Returns { s with requests := s.requests + 1 } next s')) := by
  obtain ⟨tip, s₁, asked, continued⟩ := returns_bind.mp returned
  obtain ⟨n, mid, counted, answered⟩ := returns_bind.mp asked
  obtain ⟨rfl, rfl⟩ := returns_request.mp counted
  split at answered
  · next answer served =>
    obtain ⟨rfl, rfl⟩ := returns_pure.mp answered
    refine ⟨answer, served, ?_⟩
    split at continued
    · next same =>
      obtain ⟨rfl, rfl⟩ := returns_pure.mp continued
      exact Or.inl ⟨same, rfl, rfl⟩
    · next differs =>
      obtain ⟨next, mid, built, same⟩ := returns_bind.mp continued
      obtain ⟨rfl, rfl⟩ := returns_pure.mp same
      exact Or.inr ⟨differs, next, rfl, built⟩
  · exact (returns_fail.mp answered).elim

end TickEnv

namespace ChainHeadService

variable {service : ChainHeadService} {env : TickEnv}

/-- A successful tick has read the validator's tip; it leaves the service alone if that is the tip it
holds, and otherwise publishes the graph built for it. -/
theorem tick_ok (ok : (service.tick env).outcome = .ok ()) :
    ∃ tip, env.validator.getChainTip 0 = some tip ∧
      ((tip = service.current.bestTip ∧ (service.tick env).service = service ∧
          (service.tick env).log = []) ∨ (tip ≠ service.current.bestTip ∧ ∃ next s,
          (env.nextGraph service.current tip.height).Returns ⟨1, service.seam, []⟩ next s ∧
          (service.tick env).service = { service with seam := s.seam }.publishSnapshot next ∧
          (service.tick env).log = s.log)) := by
  unfold tick at ok ⊢
  split at ok
  · next s returned =>
    obtain ⟨tip, served, ⟨same, _, rfl⟩ | ⟨_, _, absurd, _⟩⟩ := advance_returns returned
    · exact ⟨tip, served, Or.inl ⟨same, rfl, rfl⟩⟩
    · cases absurd
  · next next s returned =>
    obtain ⟨tip, served, ⟨_, absurd, _⟩ | ⟨differs, _, same, built⟩⟩ :=
      advance_returns returned
    · cases absurd
    · cases same
      exact ⟨tip, served, Or.inr ⟨differs, next, s, built, rfl, rfl⟩⟩
  · cases ok

/-- A tick that fails drops the graph it built and keeps what the seam was told. -/
theorem tick_fails {e : ChainHeadAdvanceError} (failed : (service.tick env).outcome = .error e) :
    ∃ s, (env.advance service.current).Fails ⟨0, service.seam, []⟩ e s ∧
      (service.tick env).service = { service with seam := s.seam } := by
  unfold tick at failed ⊢
  split at failed
  · cases failed
  · cases failed
  · next e' s outcome =>
    cases failed
    exact ⟨s, outcome, rfl⟩

theorem tick_error {e : ChainHeadAdvanceError} (failed : (service.tick env).outcome = .error e) :
    (service.tick env).service.current = service.current := by
  obtain ⟨s, _, after⟩ := tick_fails failed
  rw [after]

/-- A service whose window was anchored and then only ticked. -/
inductive Reachable : ChainHeadService → Prop
  | anchored {service : ChainHeadService} (anchor : ChainHeadBlock) : service.current = .fromInitialBlock anchor →
      Reachable service
  | tick {service : ChainHeadService} (env : TickEnv) : Reachable service → Reachable (service.tick env).service

theorem Reachable.keyed (reachable : service.Reachable) : service.current.Keyed := by
  induction reachable with
  | anchored anchor atAnchor => exact atAnchor ▸ MapBackedSnapshot.keyed_fromInitialBlock anchor
  | @tick service env _ ih =>
    cases outcome : (service.tick env).outcome with
    | error e => exact tick_error outcome ▸ ih
    | ok =>
      obtain ⟨_, _, ⟨_, same, _⟩ | ⟨_, next, _, built, published, _⟩⟩ := tick_ok outcome
      · rw [same]
        exact ih
      · obtain ⟨_, _, _, evolves⟩ := nextGraph_evolves ih built
        rw [published]
        exact evolves.keyed ih

end ChainHeadService

variable {horizon : Released}

variable {service : ChainHeadService} {env : TickEnv}

/-- The seam's depths and released horizon are those of `seam`. -/
def TickState.Holds (seam : SeamState) (s : TickState) : Prop :=
  s.seam.depths = seam.depths ∧ s.seam.released = seam.released

section Holds

variable {seam : SeamState} {env : TickEnv}

namespace TickEnv

variable (graph : MapBackedSnapshot)

variable (chainHeight : Height)

variable (previous : MapBackedSnapshot)

end TickEnv

end Holds

/-- A horizon together with the graph it was read from. -/
structure Release where
  horizon : Released
  graph : MapBackedSnapshot

/-- The releases of a log. -/
def releasesIn : List TickEvent → List Release
  | [] => []
  | .released horizon graph _ :: rest => ⟨horizon, graph⟩ :: releasesIn rest
  | .walked .. :: rest => releasesIn rest
  | .reanchored :: rest => releasesIn rest

/-- The horizons in force after a log: a fresh anchor starts a new window. -/
def inForceAfter : List Release → List TickEvent → List Release
  | inForce, [] => inForce
  | inForce, .released horizon graph _ :: rest => inForceAfter (⟨horizon, graph⟩ :: inForce) rest
  | inForce, .walked .. :: rest => inForceAfter inForce rest
  | _, .reanchored :: rest => inForceAfter [] rest

/-- Every reorg walk of the log joins the canonical chain at or above the horizons then in force. -/
def WalksAbove (validator : Validator) : List Release → List TickEvent → Prop
  | _, [] => True
  | inForce, .released horizon graph _ :: rest =>
    WalksAbove validator (⟨horizon, graph⟩ :: inForce) rest
  | inForce, .walked graph parentHash requests :: rest =>
    (∀ fork, Joins validator graph requests parentHash fork →
      ∀ release ∈ inForce, release.horizon.height ≤ fork.height) ∧
    WalksAbove validator inForce rest
  | _, .reanchored :: rest => WalksAbove validator [] rest

/-- The writer, with the horizons released since its window was last anchored. -/
structure History where
  service : ChainHeadService
  releases : List Release

/-- One tick. A failed tick publishes no snapshot, so it starts no new window either. -/
def History.tick (history : History) (env : TickEnv) : History :=
  let result := history.service.tick env
  match result.outcome with
  | .ok _ => ⟨result.service, inForceAfter history.releases result.log⟩
  | .error _ => ⟨result.service, releasesIn result.log ++ history.releases⟩

/-- What a window must keep of a release: its tip stays at or above the horizon, and its canonical
entries up to there stay those of the graph the horizon was read from. -/
structure Release.Holds (release : Release) (g : MapBackedSnapshot) : Prop where
  read : release.graph.heightsToHashes.lookup release.horizon.height = some release.horizon.hash
  below_tip : release.horizon.height ≤ g.tip.height
  kept : ∀ {height hash}, height ≤ release.horizon.height →
    g.heightsToHashes.lookup height = some hash →
      release.graph.heightsToHashes.lookup height = some hash

theorem Evolves.holds {validator : Validator} {depth : Nat} {g g' : MapBackedSnapshot}
    {events : List TickEvent} {inForce : List Release}
    (evolves : Evolves validator depth g events g') (above : WalksAbove validator inForce events)
    (holds : ∀ release ∈ inForce, release.Holds g) :
    ∀ release ∈ inForceAfter inForce events, release.Holds g' := by
  induction evolves generalizing inForce with
  | refl => exact holds
  | extend extended _ ih =>
    refine ih above fun release member => ?_
    obtain ⟨read, below, kept⟩ := holds release member
    obtain ⟨_, succ, rfl⟩ := MapBackedSnapshot.extend_eq_ok extended
    have below' := Height.le_def.mp below
    refine ⟨read, Height.le_def.mpr ?_, fun {height hash} le listed => kept le ?_⟩
    · rw [MapBackedSnapshot.replaceTip_tip]
      omega
    · rcases HashMap.lookup_insert_eq_some.mp listed with ⟨rfl, _⟩ | ⟨_, old⟩
      · have := Height.le_def.mp le
        omega
      · exact old
  | reorganise reorganised _ ih =>
    refine ih above.2 fun release member => ?_
    obtain ⟨read, _, kept⟩ := holds release member
    obtain ⟨fork, joins, belowTip, same, _⟩ := reorganised.joins
    have under := above.1 fork joins release member
    refine ⟨read, Nat.le_trans under (Nat.le_of_lt belowTip), fun {height hash} le listed => ?_⟩
    exact kept le (same _ (Nat.le_trans le under) ▸ listed)
  | trim floor _ ih =>
    refine ih above fun release member => ?_
    obtain ⟨read, below, kept⟩ := holds release member
    refine ⟨read, below, fun {height hash} le listed => kept le ?_⟩
    exact (MapBackedSnapshot.heightsToHashes_removeFinalisedBlocks.mp listed).1
  | reanchor anchor _ ih => exact ih above (by simp)
  | @release g events g' horizon requests atDepth listed _ ih =>
    refine ih above fun release member => ?_
    rcases mem_cons.mp member with rfl | old
    · refine ⟨listed, ?_, fun _ listed' => listed'⟩
      rw [atDepth]
      exact Nat.sub_le _ _
    · exact holds release old

/-- The validator serves height 2. -/
def toSecond : TickEnv := sampleTick 1 (by decide) [sampleServed 21 10 1 1, sampleServed 22 21 2 1]

end Zaino.ChainHead
