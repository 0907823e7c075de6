import Zaino.ChainHead.Horizon

/-!
# The moves of a tick

A tick that succeeds has moved its graph: it has extended it, rewound it to canonical blocks and
trimmed it. `Moved` is the relation of graphs that such moves lead to, for any property `Admits` that
the laid blocks have and any property `Floor` of the trims. A laid block was retained before or is the
child of a block retained then, so every property that served children inherit is such a property
(`Inherited`), and holds of every block retained after the tick (`Moved.retains`).

An invariant of the window is thus a property of blocks that children inherit, or a property of graphs
that the three moves keep.
-/

namespace Zaino.ChainHead

open Zaino Library Finality List Fallible MapBackedSnapshot Or

/-- Served children inherit the property. -/
def Inherited (validator : Validator) (Admits : ChainHeadBlock → Prop) : Prop :=
  ∀ {parent : ChainHeadBlock} {block : Block} {work : ChainHeadWork}, Admits parent →
    validator.Serves block → parent.hash = block.header.prevHash →
    block.header.height.value = parent.height.value + 1 →
    parent.work.checkedAdd block.header.bits.toWork = some work → Admits (retainedAs block work)

/-- Every retained block has the property. -/
def MapBackedSnapshot.Retains (g : MapBackedSnapshot) (Admits : ChainHeadBlock → Prop) : Prop :=
  ∀ block ∈ g.blocks, Admits block

/-- The moves from one graph to another. -/
inductive Moved (Admits : ChainHeadBlock → Prop) (Floor : Height → Prop) :
    MapBackedSnapshot → MapBackedSnapshot → Prop
  | refl {g : MapBackedSnapshot} : Moved Admits Floor g g
  | extend {g g' next : MapBackedSnapshot} {block : ChainHeadBlock} : Moved Admits Floor g g' →
      Admits block → g'.extend block = (.ok (), next) → Moved Admits Floor g next
  | rewind {g g' next : MapBackedSnapshot} {fork : ChainHeadBlock} : Moved Admits Floor g g' →
      g'.blockByHash fork.hash = some fork → g'.isOnBestChain fork.reference = true →
      g'.rewindTo fork.reference = (.ok (), next) → next.tip = fork → Moved Admits Floor g next
  | trim {g g' : MapBackedSnapshot} {floor : Height} : Moved Admits Floor g g' → Floor floor →
      Moved Admits Floor g (g'.removeFinalisedBlocks floor)

namespace Moved

variable {Admits : ChainHeadBlock → Prop} {Floor : Height → Prop} {g g' g'' : MapBackedSnapshot}

theorem trans (first : Moved Admits Floor g g') (second : Moved Admits Floor g' g'') :
    Moved Admits Floor g g'' := by
  induction second with
  | refl => exact first
  | extend _ admitted extended ih => exact ih.extend admitted extended
  | rewind _ retained canonical rewound tip ih => exact ih.rewind retained canonical rewound tip
  | trim _ floor ih => exact ih.trim floor

theorem keyed (moved : Moved Admits Floor g g') (keyed : g.Keyed) : g'.Keyed := by
  induction moved with
  | refl => exact keyed
  | extend _ _ extended ih => exact ih.extend extended
  | rewind _ _ _ rewound _ ih => exact ih.rewindTo rewound
  | trim _ _ ih => exact ih.removeFinalisedBlocks _

end Moved

/-! ## What is retained -/

namespace MapBackedSnapshot

variable {g next : MapBackedSnapshot} {Admits : ChainHeadBlock → Prop}

variable {block : ChainHeadBlock} {hash : BlockHash}

theorem mem_blocks_replaceTip {newTip : ChainHeadBlock}
    (member : block ∈ (g.replaceTip newTip).blocks) : block = newTip ∨ block ∈ g.blocks := by
  rcases mem_blocks.mp member with rfl | ⟨hash, lookup⟩
  · exact inl rfl
  · rw [replaceTip_others_lookup] at lookup
    split at lookup
    · cases lookup
    · split at lookup
      · cases lookup
        exact inr mem_cons_self
      · exact inr (mem_blocks.mpr (inr ⟨hash, lookup⟩))

/-- The heaviest block is retained, and no retained block is heavier. -/
theorem heaviestBlock_spec (g : MapBackedSnapshot) (visit : IterationOrder ChainHeadBlock) :
    g.heaviestBlock visit ∈ g.blocks ∧
      ∀ block ∈ g.blocks, block.work.value ≤ (g.heaviestBlock visit).work.value := by
  have fold : ∀ (visited : List ChainHeadBlock) (first : ChainHeadBlock),
      let heaviest := visited.foldl
        (fun heaviest block => if heaviest.work.value < block.work.value then block else heaviest)
        first
      heaviest ∈ first :: visited ∧
        ∀ block ∈ first :: visited, block.work.value ≤ heaviest.work.value := by
    intro visited
    induction visited with
    | nil => exact fun first => ⟨mem_cons_self, fun block member => by simp_all⟩
    | cons next rest ih =>
      intro first
      rw [foldl_cons]
      obtain ⟨member, bound⟩ := ih (if first.work.value < next.work.value then next else first)
      refine ⟨?_, fun block listed => ?_⟩
      · rcases mem_cons.mp member with same | later
        · rw [same]
          split
          · exact mem_cons_of_mem _ mem_cons_self
          · exact mem_cons_self
        · exact mem_cons_of_mem _ (mem_cons_of_mem _ later)
      · have picked : ∀ other, other = first ∨ other = next → other.work.value ≤
            (if first.work.value < next.work.value then next else first).work.value := by
          rintro other (rfl | rfl) <;> split <;> omega
        have chosen := bound _ mem_cons_self
        rcases mem_cons.mp listed with is_first | listed
        · exact Nat.le_trans (picked block (inl is_first)) chosen
        · rcases mem_cons.mp listed with is_next | later
          · exact Nat.le_trans (picked block (inr is_next)) chosen
          · exact bound block (mem_cons_of_mem _ later)
  obtain ⟨member, bound⟩ := fold (visit.order g.others.values) g.tip
  refine ⟨?_, fun block listed => bound block ?_⟩
  · rcases mem_cons.mp member with tip | other
    · exact mem_cons.mpr (inl tip)
    · exact mem_cons_of_mem _ (visit.mem_order.mp other)
  · rcases mem_cons.mp listed with rfl | other
    · exact mem_cons_self
    · exact mem_cons_of_mem _ (visit.mem_order.mpr other)

theorem retains_fromInitialBlock (admitted : Admits block) :
    (fromInitialBlock block).Retains Admits := by
  intro found member
  rcases mem_blocks.mp member with rfl | ⟨hash, lookup⟩
  · exact admitted
  · cases lookup

variable (retains : g.Retains Admits)

include retains

theorem Retains.tip : Admits g.tip :=
  retains g.tip mem_cons_self

theorem Retains.extend (admitted : Admits block)
    (extended : g.extend block = (.ok (), next)) : next.Retains Admits := by
  obtain ⟨_, _, rfl⟩ := extend_eq_ok extended
  intro found member
  rcases mem_blocks_replaceTip member with rfl | old
  · exact admitted
  · exact retains found old

theorem Retains.rewindTo {block : BlockRef}
    (rewound : g.rewindTo block = (.ok (), next)) : next.Retains Admits := by
  rcases rewindTo_eq_ok rewound with ⟨_, rfl⟩ | ⟨newTip, _, _, found, rfl⟩
  · exact retains
  · intro found' member
    rcases mem_blocks_replaceTip member with rfl | old
    · exact retains _ (mem_blocks.mpr (inr ⟨_, found⟩))
    · exact retains found' old

theorem Retains.removeFinalisedBlocks (floor : Height) :
    (g.removeFinalisedBlocks floor).Retains Admits := by
  intro found member
  rcases mem_blocks.mp member with rfl | ⟨hash, lookup⟩
  · exact retains.tip
  · exact retains found (mem_blocks.mpr (inr ⟨hash, (HashMap.lookup_retain_eq_some.mp lookup).1⟩))

end MapBackedSnapshot

variable {Admits : ChainHeadBlock → Prop}

/-- What the moves lay down or keep has the property. -/
theorem Moved.retains {Floor : Height → Prop}
    {g g' : MapBackedSnapshot} (moved : Moved Admits Floor g g') (retains : g.Retains Admits) :
    g'.Retains Admits := by
  induction moved with
  | refl => exact retains
  | extend _ admitted extended ih => exact ih.extend admitted extended
  | rewind _ _ _ rewound _ ih => exact ih.rewindTo rewound
  | trim _ _ ih => exact ih.removeFinalisedBlocks _

/-- Without trims, what is retained stays retained, under its hash. -/
theorem Moved.blockByHash_isSome {g g' : MapBackedSnapshot}
    (moved : Moved Admits (fun _ => False) g g') {hash : BlockHash}
    (retained : (g.blockByHash hash).isSome) : (g'.blockByHash hash).isSome := by
  induction moved with
  | refl => exact retained
  | extend _ _ extended ih =>
    obtain ⟨_, _, rfl⟩ := extend_eq_ok extended
    rw [blockByHash_replaceTip]
    split
    · rfl
    · exact ih
  | rewind _ _ _ rewound _ ih =>
    rcases rewindTo_eq_ok rewound with ⟨_, rfl⟩ | ⟨newTip, _, _, _, rfl⟩
    · exact ih
    · rw [blockByHash_replaceTip]
      split
      · rfl
      · exact ih
  | trim _ never => exact never.elim

/-! ## What a tick's steps move -/

namespace TickEnv

variable {env : TickEnv} {Admits : ChainHeadBlock → Prop} {Floor : Height → Prop}
  {g g' : MapBackedSnapshot} {s s' : TickState}

variable {block : Block} {built : ChainHeadBlock} {chainHeight : Height}

variable (inherited : Inherited env.validator Admits)

include inherited

/-- Extending by a served child of the tip is a move. -/
theorem extend_moved (retains : g.Retains Admits) (serves : env.validator.Serves block)
    (built_on : (env.blockToChainblock g.tip block).Returns s built s')
    (extended : g.extend built = (.ok (), g')) : Moved Admits Floor g g' := by
  obtain ⟨_, work, added, rfl⟩ := blockToChainblock_returns built_on
  obtain ⟨child, above, _⟩ := extend_eq_ok extended
  exact .extend .refl (inherited retains.tip serves child.symm above added) extended

theorem layDown_moved {pending : List BranchBlock} {last : ChainHeadBlock}
    (retains : g.Retains Admits) (admitted : ∀ block ∈ pending, block.Admitted env.validator Admits)
    (returned : (env.layDown g g.tip pending).Returns s (g', last) s') :
    Moved Admits Floor g g' := by
  induction pending generalizing g s with
  | nil =>
    obtain ⟨same, rfl⟩ := returns_pure.mp returned
    cases same
    exact .refl
  | cons first rest ih =>
    obtain ⟨block, mid, built, continued⟩ := returns_bind.mp returned
    obtain ⟨next, mid', accepted, remaining⟩ := returns_bind.mp continued
    obtain ⟨extended, rfl⟩ := accept_returns accepted
    have here : first.Admitted env.validator Admits := admitted first mem_cons_self
    have moved : Moved Admits Floor g next := by
      cases first with
      | retained stored =>
        obtain ⟨rfl, rfl⟩ := returns_pure.mp built
        exact .extend .refl here extended
      | fetched served => exact extend_moved inherited retains here built extended
    have tip : block = next.tip := by
      obtain ⟨_, _, rfl⟩ := extend_eq_ok extended
      rfl
    rw [tip] at remaining
    exact moved.trans (ih (moved.retains retains)
      (fun block member => admitted block (mem_cons_of_mem _ member)) remaining)

theorem handleReorg_moved (keyed : g.Keyed) (retains : g.Retains Admits) {block : BranchBlock}
    (admitted : block.Admitted env.validator Admits)
    (returned : (env.handleReorg g block).Returns s g' s') : Moved Admits Floor g g' := by
  obtain ⟨fork, branch, s₁, rewound, last, descended, rewind, laidDown⟩ := handleReorg_steps returned
  obtain ⟨_, joins, _, hanging⟩ := descend_returns descended
  obtain ⟨⟨hash, retained⟩, canonical⟩ := joins.fork_canonical
  have tip : rewound.tip = fork := (keyed.rewindTo_fork retained rewind).1
  have atHash : g.blockByHash fork.hash = some fork := by
    rw [keyed.blockByHash retained]
    exact retained
  have moved : Moved Admits Floor g rewound := .rewind .refl atHash canonical rewind tip
  rw [← tip] at laidDown
  refine moved.trans (layDown_moved inherited (moved.retains retains) ?_ laidDown)
  intro pending member
  rcases mem_append.mp member with below | top
  · exact (hanging pending (mem_reverse.mp below)).mono retains
  · exact mem_singleton.mp top ▸ admitted

/-- The phases of a tick move its graph, whatever they do to its state. -/
theorem moved_traversal : Traversal env (fun g => g.Keyed ∧ g.Retains Admits)
    fun g _ g' _ => Moved Admits Floor g g' where
  good moved held := ⟨moved.keyed held.1, moved.retains held.2⟩
  trans := .trans
  requests _ := .refl
  extend held serves built extended := extend_moved inherited held.2 serves built extended
  reorganise {_ _ _ _ block} held serves returned :=
    have admitted : (BranchBlock.fetched block).Admitted env.validator Admits := serves
    handleReorg_moved inherited held.1 held.2 admitted returned

omit inherited

theorem switchToHeaviest_moved (inherited : Inherited env.validator Admits) (keyed : g.Keyed)
    (retains : g.Retains Admits) (returned : (env.switchToHeaviest g).Returns s g' s') :
    Moved Admits Floor g g' := by
  unfold switchToHeaviest at returned
  dsimp only at returned
  split at returned
  · have admitted : (BranchBlock.retained (g.heaviestBlock env.visit)).Admitted env.validator Admits :=
      retains _ (g.heaviestBlock_spec env.visit).1
    exact handleReorg_moved inherited keyed retains admitted returned
  · obtain ⟨rfl, rfl⟩ := returns_pure.mp returned
    exact .refl

/-- A successful tick moves the window it started from. -/
theorem nextGraph_moved (keyed : g.Keyed)
    (returned : (env.nextGraph g chainHeight).Returns s g' s') :
    s'.seam.committed = env.durable ∧ s'.seam.depths = s.seam.depths ∧
      ∃ started, (started = g ∨ ∃ block, env.validator.Serves block ∧
          started = .fromInitialBlock (anchorOf block) ∧ .reanchored ∈ s'.log) ∧
        ∀ {Admits : ChainHeadBlock → Prop} {Floor : Height → Prop},
          Inherited env.validator Admits → started.Retains Admits →
          (∀ {floor}, env.TrimsTo s.seam.depths.retentionMargin floor → Floor floor) →
          Moved Admits Floor started g' := by
  obtain ⟨depths, _, _, _⟩ := nextGraph_evolves keyed returned
  obtain ⟨caught, s₄, caughtUp, returned⟩ := returns_bind.mp returned
  obtain ⟨_, s₅, published, switched⟩ := returns_bind.mp returned
  obtain ⟨started, s₁, start, caughtUp⟩ := returns_bind.mp caughtUp
  obtain ⟨extended, s₂, extend, caughtUp⟩ := returns_bind.mp caughtUp
  obtain ⟨checked, s₃, check, trimmed⟩ := returns_bind.mp caughtUp
  have startedKeyed : started.Keyed := by
    rcases startingGraph_cases start with ⟨rfl, _⟩ | ⟨block, _, rfl, _⟩
    · exact keyed
    · exact keyed_fromInitialBlock _
  have first : Phase env.validator 0 started s₁ extended s₂ :=
    phase_traversal.extendTo startedKeyed extend
  have second : Phase env.validator 0 extended s₂ checked s₃ :=
    phase_traversal.checkForNonhigherReorgs (first.keyed startedKeyed) check
  have third : Phase env.validator 0 checked s₃ caught s₄ := trim_phase trimmed
  have caughtPhase := first.trans (second.trans third)
  have caughtKeyed : caught.Keyed := caughtPhase.keyed startedKeyed
  obtain ⟨sameSeam, switchLog⟩ := switchToHeaviest_returns caughtKeyed switched
  obtain ⟨_, _, sameCommitted, publishLog⟩ := publishHorizon_returns published
  have grows : ∀ event ∈ s₁.log, event ∈ s'.log := by
    intro event member
    obtain ⟨events, log, _⟩ := caughtPhase.evolves
    have atPublish : event ∈ s₅.log := by
      have atCaught : event ∈ s₄.log := log ▸ mem_append_left _ member
      rcases publishLog with same | ⟨_, _, same, _⟩
      · exact same ▸ atCaught
      · exact same ▸ mem_append_left _ atCaught
    rcases switchLog with ⟨_, _, same⟩ | ⟨_, same, _⟩
    · exact same ▸ atPublish
    · exact same ▸ mem_append_left _ atPublish
  obtain ⟨floor, _, within, rfl, rfl⟩ := trim_returns trimmed
  have margin : s₃.seam.depths = s.seam.depths := by
    rw [second.seam.1, first.seam.1]
    rcases startingGraph_cases start with ⟨_, rfl⟩ | ⟨_, _, _, seam, _⟩
    · rfl
    · rw [seam]
  refine ⟨?_, depths, started, ?_, ?_⟩
  · rw [sameSeam, sameCommitted]
  · rcases startingGraph_cases start with ⟨same, _⟩ | ⟨block, serves, same, _, log⟩
    · exact inl same
    · exact inr ⟨block, serves, same, grows _ (log ▸ mem_append_right _ (by simp))⟩
  · intro Admits Floor inherited retains floors
    have extendMoved : Moved Admits Floor started extended :=
      (moved_traversal inherited).extendTo ⟨startedKeyed, retains⟩ extend
    have checkMoved : Moved Admits Floor extended checked :=
      (moved_traversal inherited).checkForNonhigherReorgs
        ⟨extendMoved.keyed startedKeyed, extendMoved.retains retains⟩ check
    have moved := (extendMoved.trans checkMoved).trim (floors (margin ▸ within))
    exact moved.trans (switchToHeaviest_moved inherited caughtKeyed (moved.retains retains) switched)

end TickEnv

/-- The event is a fresh anchor. -/
def TickEvent.isReanchor : TickEvent → Bool
  | .reanchored => true
  | _ => false

/-- Whether the tick started over from a fresh anchor. -/
def TickResult.reanchored (result : TickResult) : Bool := result.log.any TickEvent.isReanchor

/-- A successful tick leaves the service as it was, or publishes a graph it moved to. -/
theorem ChainHeadService.tick_moved {service : ChainHeadService} {env : TickEnv}
    (keyed : service.current.Keyed) (ok : (service.tick env).outcome = .ok ()) :
    (service.tick env).service = service ∨
      ((service.tick env).service.seam.committed = env.durable ∧
        (service.tick env).service.seam.depths = service.seam.depths ∧
        ∃ started next, (service.tick env).service.current =
            next.stampGeneration service.current service.updates.generation ∧
          (started = service.current ∨ ∃ block, env.validator.Serves block ∧
            started = .fromInitialBlock (anchorOf block) ∧ (service.tick env).reanchored = true) ∧
          ∀ {Admits : ChainHeadBlock → Prop} {Floor : Height → Prop},
            Inherited env.validator Admits → started.Retains Admits →
            (∀ {floor}, env.TrimsTo service.seam.depths.retentionMargin floor → Floor floor) →
            Moved Admits Floor started next) := by
  obtain ⟨_, _, ⟨_, same, _⟩ | ⟨_, next, s, built, published, log⟩⟩ := tick_ok ok
  · exact inl same
  · obtain ⟨committed, depths, started, start, moved⟩ := TickEnv.nextGraph_moved keyed built
    refine inr ⟨?_, ?_, started, next, ?_, ?_, moved⟩
    · rw [published]
      exact committed
    · rw [published]
      exact depths
    · rw [published]
      rfl
    · rcases start with same | ⟨block, serves, same, reanchored⟩
      · exact inl same
      · refine inr ⟨block, serves, same, any_eq_true.mpr ⟨.reanchored, ?_, rfl⟩⟩
        rw [log]
        exact reanchored

end Zaino.ChainHead
