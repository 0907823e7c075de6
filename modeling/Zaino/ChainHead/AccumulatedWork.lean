import Zaino.ChainHead.Moves

/-!
# Accumulated work

A retained block carries the work accumulated to it. It is computed once, when the block is laid down
on its parent, from the work the parent carries; the parent may be retained, fetched by a reorg walk
or trimmed later. Since a hash commits to the header, the sum along the ancestors from the anchor is a
function of the hash alone, and every retained block carries exactly that sum (`Accumulates`). So
stored works compare as the sums do, whichever blocks have been trimmed since.
-/

namespace Zaino.ChainHead

open Zaino Library Finality List MapBackedSnapshot

/-- What a block hash commits to, the work of its header included. -/
structure HeaderIdentity extends HashIdentity where
  work : BlockHash → Nat

/-- The block carries the header that its hash commits to. -/
structure HeaderIdentity.Commits (identity : HeaderIdentity) (block : Block) : Prop where
  height : block.header.height = identity.height block.header.hash
  parent : block.header.prevHash = identity.parent block.header.hash
  work : block.header.bits.toWork.value = identity.work block.header.hash

theorem HeaderIdentity.Commits.positive {identity : HeaderIdentity} {block : Block}
    (commits : identity.Commits block) : 0 < identity.work block.header.hash :=
  commits.work ▸ block.header.bits.toWork.positive

/-- Whatever the validator serves carries the header its hash commits to. -/
def Validator.Respects (validator : Validator) (identity : HeaderIdentity) : Prop :=
  ∀ block, validator.Serves block → identity.Commits block

/-! ## Paths from the anchor -/

/-- The ancestors of a block from the anchor on, oldest first, the block itself last. -/
inductive AncestorPath (identity : HeaderIdentity) (anchor : BlockHash) :
    BlockHash → List BlockHash → Prop
  | anchor : AncestorPath identity anchor anchor [anchor]
  | child {hash : BlockHash} {path : List BlockHash} :
      AncestorPath identity anchor (identity.parent hash) path →
      (identity.height hash).value = (identity.height (identity.parent hash)).value + 1 →
      AncestorPath identity anchor hash (path ++ [hash])

/-- The sum of the works along a path. -/
def HeaderIdentity.pathWork (identity : HeaderIdentity) (path : List BlockHash) : Nat :=
  (path.map identity.work).sum

theorem HeaderIdentity.pathWork_append (identity : HeaderIdentity) (path : List BlockHash)
    (hash : BlockHash) :
    identity.pathWork (path ++ [hash]) = identity.pathWork path + identity.work hash := by
  rw [pathWork, pathWork, map_append, sum_append, map_singleton, sum_singleton]

namespace AncestorPath

variable {identity : HeaderIdentity} {anchor hash : BlockHash} {path path' : List BlockHash}

theorem length (ancestors : AncestorPath identity anchor hash path) :
    (identity.height hash).value + 1 = (identity.height anchor).value + path.length := by
  induction ancestors with
  | anchor => rfl
  | child _ above ih =>
    rw [length_append, length_singleton]
    omega

theorem length_pos (ancestors : AncestorPath identity anchor hash path) : 0 < path.length := by
  cases ancestors with
  | anchor => exact Nat.one_pos
  | child _ _ => simp

/-- The anchor is not its own descendant, so a block has one path. -/
theorem unique (first : AncestorPath identity anchor hash path)
    (second : AncestorPath identity anchor hash path') : path = path' := by
  induction first generalizing path' with
  | anchor =>
    cases second with
    | anchor => rfl
    | child older above =>
      have length := older.length
      have nonempty := older.length_pos
      omega
  | child older above ih =>
    cases second with
    | anchor =>
      have length := older.length
      have nonempty := older.length_pos
      omega
    | child older' _ => rw [ih older']

end AncestorPath

/-- The block carries its header and the work summed along its path from the anchor. -/
structure Accumulates (identity : HeaderIdentity) (anchor : BlockHash) (block : ChainHeadBlock) :
    Prop where
  described : identity.Describes block
  positive : 0 < identity.work block.hash
  path : ∃ path, AncestorPath identity anchor block.hash path ∧
    block.work.value = identity.pathWork path

namespace Accumulates

variable {identity : HeaderIdentity} {anchor : BlockHash}

theorem anchorOf {block : Block} (commits : identity.Commits block) :
    Accumulates identity block.header.hash (anchorOf block) := by
  refine ⟨⟨commits.height, commits.parent⟩, commits.positive, [block.header.hash], .anchor, ?_⟩
  rw [HeaderIdentity.pathWork, map_singleton, sum_singleton, ← commits.work]
  rfl

/-- Served children accumulate onto their parent. -/
theorem inherited {validator : Validator} (respects : validator.Respects identity) :
    Inherited validator (Accumulates identity anchor) := by
  intro parent block work accumulates serves child above added
  have commits : identity.Commits block := respects block serves
  obtain ⟨path, ancestors, sum⟩ := accumulates.path
  have isParent : parent.hash = identity.parent block.header.hash := child.trans commits.parent
  refine ⟨⟨commits.height, commits.parent⟩, commits.positive, path ++ [block.header.hash], ?_, ?_⟩
  · refine .child (isParent ▸ ancestors) ?_
    change (identity.height block.header.hash).value =
      (identity.height (identity.parent block.header.hash)).value + 1
    rw [← isParent, ← commits.height, ← accumulates.described.1]
    exact above
  · have total : work.value = parent.work.value + block.header.bits.toWork.value := by
      unfold ChainHeadWork.checkedAdd at added
      split at added
      · cases added
        rfl
      · cases added
    rw [HeaderIdentity.pathWork_append, ← commits.work, ← sum]
    exact total

/-- The accumulated work is a function of the hash. -/
theorem work_eq {block block' : ChainHeadBlock} (first : Accumulates identity anchor block)
    (second : Accumulates identity anchor block') (same : block.hash = block'.hash) :
    block.work.value = block'.work.value := by
  obtain ⟨path, ancestors, sum⟩ := first.path
  obtain ⟨path', ancestors', sum'⟩ := second.path
  rw [sum, sum', ancestors.unique (same ▸ ancestors')]

variable {parent child : ChainHeadBlock} (older : Accumulates identity anchor parent)

include older

/-- A child's path is its parent's, with the child at its end. -/
theorem path_child (described : identity.Describes child) (linked : child.parentHash = parent.hash)
    (above : child.height.value = parent.height.value + 1) :
    ∃ path, AncestorPath identity anchor child.hash path ∧
      identity.pathWork path = parent.work.value + identity.work child.hash := by
  obtain ⟨path, ancestors, sum⟩ := older.path
  have isParent : parent.hash = identity.parent child.hash := linked.symm.trans described.2
  refine ⟨path ++ [child.hash], .child (isParent ▸ ancestors) ?_, ?_⟩
  · rw [← isParent, ← described.1, ← older.described.1]
    exact above
  · rw [HeaderIdentity.pathWork_append, ← sum]

/-- A child has accumulated its own work above its parent's. -/
theorem work_child
    (newer : Accumulates identity anchor child) (linked : child.parentHash = parent.hash)
    (above : child.height.value = parent.height.value + 1) :
    child.work.value = parent.work.value + identity.work child.hash := by
  obtain ⟨path, ancestors, sum⟩ := newer.path
  obtain ⟨extended, ancestors', sum'⟩ := older.path_child newer.described linked above
  rw [sum, ancestors.unique ancestors', sum']

theorem work_lt_child
    (newer : Accumulates identity anchor child) (linked : child.parentHash = parent.hash)
    (above : child.height.value = parent.height.value + 1) :
    parent.work.value < child.work.value := by
  rw [older.work_child newer linked above]
  exact Nat.lt_add_of_pos_right newer.positive

end Accumulates

/-! ## What the moves keep -/

theorem Moved.representation {identity : HashIdentity} {Admits : ChainHeadBlock → Prop}
    {Floor : Height → Prop} {g g' : MapBackedSnapshot}
    (described : ∀ {block}, Admits block → identity.Describes block)
    (moved : Moved Admits Floor g g') (rep : Representation identity g) :
    Representation identity g' := by
  induction moved with
  | refl => exact rep
  | extend _ admitted extended ih => exact ih.extend (described admitted) extended
  | rewind _ _ _ rewound _ ih => exact ih.rewindTo rewound
  | trim _ _ ih => exact ih.removeFinalisedBlocks _

/-- A window that represents a block tree and carries the works summed from one anchor. -/
structure WorksFrom (identity : HeaderIdentity) (anchor : BlockHash) (g : MapBackedSnapshot) :
    Prop where
  represents : Representation identity.toHashIdentity g
  works : g.Retains (Accumulates identity anchor)

namespace WorksFrom

variable {identity : HeaderIdentity} {anchor : BlockHash} {g g' : MapBackedSnapshot}

theorem fromInitialBlock {block : Block} (commits : identity.Commits block) :
    WorksFrom identity block.header.hash (.fromInitialBlock (anchorOf block)) :=
  ⟨.fromInitialBlock (Accumulates.anchorOf commits).described,
    retains_fromInitialBlock (.anchorOf commits)⟩

variable (works : WorksFrom identity anchor g)

include works

theorem moved {Floor : Height → Prop} (moved : Moved (Accumulates identity anchor) Floor g g') :
    WorksFrom identity anchor g' :=
  ⟨moved.representation (fun accumulates => accumulates.described) works.represents,
    moved.retains works.works⟩

theorem keyed : g.Keyed := by
  intro hash block lookup
  have apart : g.tip.hash ≠ hash := by
    rintro rfl
    rw [works.represents.tip_apart] at lookup
    cases lookup
  have retained : g.blockByHash hash = some block := by
    rw [blockByHash, if_neg apart]
    exact lookup
  exact works.represents.keyed retained

theorem stampGeneration (previous : MapBackedSnapshot) (highest : Nat) :
    WorksFrom identity anchor (g.stampGeneration previous highest) :=
  ⟨⟨works.represents.tip_apart, works.represents.keyed, works.represents.described,
      works.represents.tip_listed, works.represents.listed, works.represents.below_tip,
      works.represents.gapless, works.represents.linked⟩, works.works⟩

theorem accumulates {hash : BlockHash} {block : ChainHeadBlock}
    (retained : g.blockByHash hash = some block) :
    Accumulates identity anchor block ∧ block.hash = hash :=
  ⟨works.works block (mem_blocks_of_blockByHash retained),
    works.represents.keyed retained⟩

/-- A canonical block lies at the height it is listed under. -/
theorem height_eq {height : Height} {hash : BlockHash} {block : ChainHeadBlock}
    (listed : g.heightsToHashes.lookup height = some hash)
    (retained : g.blockByHash hash = some block) : block.height = height := by
  obtain ⟨named, retained', atHeight⟩ := works.represents.listed listed
  rw [retained] at retained'
  cases retained'
  exact atHeight

/-- Along the canonical chain the accumulated work rises. -/
theorem work_lt_of_height_lt {lower upper : ChainHeadBlock} {height height' : Height}
    (canonical : g.bestBlockByHeight height = some lower)
    (canonical' : g.bestBlockByHeight height' = some upper) (lt : height < height') :
    lower.work.value < upper.work.value := by
  obtain ⟨hash, listed, retained⟩ := Option.bind_eq_some_iff.mp canonical
  obtain ⟨hash', listed', retained'⟩ := Option.bind_eq_some_iff.mp canonical'
  -- Induction on the distance, one canonical link at a time.
  obtain ⟨distance, apart⟩ : ∃ distance, height'.value = height.value + distance + 1 :=
    ⟨height'.value - height.value - 1, by have := Height.lt_def.mp lt; omega⟩
  clear lt canonical canonical'
  induction distance generalizing height' hash' upper with
  | zero =>
    obtain ⟨low, _⟩ := works.accumulates retained
    obtain ⟨high, _⟩ := works.accumulates retained'
    have link := works.represents.linked apart listed listed' retained'
    rw [← works.represents.keyed retained] at link
    refine Accumulates.work_lt_child low high link ?_
    rw [works.height_eq listed retained, works.height_eq listed' retained']
    exact apart
  | succ distance ih =>
    have below : height.value + distance + 1 ≤ maxHeight := by
      have := height'.bounded
      omega
    let middle : Height := ⟨height.value + distance + 1, below⟩
    have le_tip : middle ≤ g.tip.height := by
      have top := Height.le_def.mp (works.represents.below_tip listed')
      exact Height.le_def.mpr (by change height.value + distance + 1 ≤ _; omega)
    obtain ⟨between, listedBetween⟩ := works.represents.gapless listed
      (Height.le_def.mpr (by change _ ≤ height.value + distance + 1; omega)) le_tip
    obtain ⟨block, retainedBetween, _⟩ := works.represents.listed listedBetween
    have earlier := ih _ listedBetween retainedBetween rfl
    obtain ⟨low, _⟩ := works.accumulates retainedBetween
    obtain ⟨high, _⟩ := works.accumulates retained'
    have succ : height'.value = middle.value + 1 := by
      omega
    have link := works.represents.linked succ listedBetween listed' retained'
    rw [← works.represents.keyed retainedBetween] at link
    refine Nat.lt_trans earlier (Accumulates.work_lt_child low high link ?_)
    rw [works.height_eq listedBetween retainedBetween, works.height_eq listed' retained']
    exact succ

end WorksFrom

namespace ChainHeadService

variable {identity : HeaderIdentity} {service : ChainHeadService}

/-- A successful tick keeps the works summed from the window's anchor, or sums them from the anchor it
took. -/
theorem tick_worksFrom {env : TickEnv} {anchor : BlockHash}
    (respects : env.validator.Respects identity) (works : WorksFrom identity anchor service.current) :
    WorksFrom identity anchor (service.tick env).service.current ∨
      ((service.tick env).outcome = .ok () ∧ (service.tick env).reanchored = true ∧
        ∃ anchor', WorksFrom identity anchor' (service.tick env).service.current) := by
  cases outcome : (service.tick env).outcome with
  | error e => exact Or.inl (tick_error outcome ▸ works)
  | ok =>
    rcases tick_moved works.keyed outcome with same | ⟨_, _, started, next, current, start, moves⟩
    · rw [same]
      exact Or.inl works
    · rw [current]
      rcases start with rfl | ⟨block, serves, rfl, reanchored⟩
      · have moved : Moved (Accumulates identity anchor) (fun _ => True) service.current next :=
          moves (Accumulates.inherited respects) works.works fun _ => trivial
        exact Or.inl ((works.moved moved).stampGeneration _ _)
      · have fresh := WorksFrom.fromInitialBlock (respects block serves)
        have moved : Moved (Accumulates identity block.header.hash) (fun _ => True)
            (.fromInitialBlock (anchorOf block)) next :=
          moves (Accumulates.inherited respects) fresh.works fun _ => trivial
        exact Or.inr ⟨rfl, reanchored, _, (fresh.moved moved).stampGeneration _ _⟩

/-- A service reached from one anchor by ticks that take no fresh one; failed ticks change nothing. -/
inductive FromAnchor (identity : HeaderIdentity) (anchor : Block) : ChainHeadService → Prop
  | anchored {service : ChainHeadService} :
      service.current = .fromInitialBlock (anchorOf anchor) → FromAnchor identity anchor service
  | tick {service : ChainHeadService} (env : TickEnv) : FromAnchor identity anchor service →
      env.validator.Respects identity →
      ((service.tick env).outcome = .ok () → (service.tick env).reanchored = false) →
      FromAnchor identity anchor (service.tick env).service

theorem FromAnchor.worksFrom {anchor : Block}
    (commits : identity.Commits anchor) (reached : FromAnchor identity anchor service) :
    WorksFrom identity anchor.header.hash service.current := by
  induction reached with
  | anchored atAnchor =>
    rw [atAnchor]
    exact .fromInitialBlock commits
  | tick env _ respects kept ih =>
    rcases tick_worksFrom respects ih with works | ⟨ok, reanchored, _⟩
    · exact works
    · rw [kept ok] at reanchored
      cases reanchored

/-- A service reached by any ticks whose validators respect the hashes. -/
inductive ReachableUnder (identity : HeaderIdentity) : ChainHeadService → Prop
  | anchored {service : ChainHeadService} (anchor : Block) : identity.Commits anchor →
      service.current = .fromInitialBlock (anchorOf anchor) → ReachableUnder identity service
  | tick {service : ChainHeadService} (env : TickEnv) : ReachableUnder identity service →
      env.validator.Respects identity → ReachableUnder identity (service.tick env).service

theorem ReachableUnder.worksFrom (reachable : ReachableUnder identity service) :
    ∃ anchor, WorksFrom identity anchor service.current := by
  induction reachable with
  | anchored anchor commits atAnchor =>
    rw [atAnchor]
    exact ⟨_, .fromInitialBlock commits⟩
  | tick env _ respects ih =>
    obtain ⟨anchor, works⟩ := ih
    rcases tick_worksFrom respects works with works | ⟨_, _, works⟩
    · exact ⟨anchor, works⟩
    · exact works

/-- In every graph reached from one anchor, any two retained blocks have one path from the anchor
each, and their stored works compare as the sums along these paths. -/
theorem work_comparable {anchor : Block}
    (commits : identity.Commits anchor) (reached : FromAnchor identity anchor service)
    {first second : ChainHeadBlock} (retained : first ∈ service.current.blocks)
    (retained' : second ∈ service.current.blocks) :
    (∃ path, AncestorPath identity anchor.header.hash first.hash path) ∧
      (∃ path, AncestorPath identity anchor.header.hash second.hash path) ∧
      ∀ path path', AncestorPath identity anchor.header.hash first.hash path →
        AncestorPath identity anchor.header.hash second.hash path' →
        compare first.work.value second.work.value =
          compare (identity.pathWork path) (identity.pathWork path') := by
  have works := reached.worksFrom commits
  obtain ⟨path, ancestors, sum⟩ := (works.works first retained).path
  obtain ⟨path', ancestors', sum'⟩ := (works.works second retained').path
  refine ⟨⟨path, ancestors⟩, ⟨path', ancestors'⟩, fun other other' isPath isPath' => ?_⟩
  rw [sum, sum', ancestors.unique isPath, ancestors'.unique isPath']

end ChainHeadService

/-! ## A small block tree -/

/-- Headers whose hash tells their height by its last digit; 21 and 31 are siblings above 20, and
every block has work 1. -/
def sampleIdentity : HeaderIdentity where
  height := fun hash => ⟨hash.toNat % 10, Nat.le_of_lt (Nat.lt_trans (Nat.mod_lt _ (by decide)) (by decide))⟩
  parent := fun hash => if hash = 31 then 20 else hash - 1
  work := fun _ => 1

theorem sampleValidator_respects {chain : List Block}
    (commits : ∀ block ∈ chain, sampleIdentity.Commits block) :
    (sampleValidator chain).Respects sampleIdentity := by
  intro block serves
  cases serves with
  | atHeight served => exact commits block (mem_of_find?_eq_some (Answer.ofOption_eq_found.mp served))
  | byHash served => exact commits block (mem_of_find?_eq_some (Answer.ofOption_eq_found.mp served))

/-- Genesis. -/
def sampleGenesis : Block := sampleServed 20 19 0 1

/-- A chain above it. -/
def sampleChain : List Block := [sampleGenesis, sampleServed 21 20 1 1, sampleServed 22 21 2 1]

/-- A longer chain, forked off genesis. -/
def sampleFork : List Block :=
  [sampleGenesis, sampleServed 31 20 1 1, sampleServed 32 31 2 1, sampleServed 33 32 3 1]

theorem sampleChain_commits : ∀ block ∈ sampleChain, sampleIdentity.Commits block := by
  intro block member
  simp only [sampleChain, mem_cons, not_mem_nil, or_false] at member
  rcases member with rfl | rfl | rfl <;> exact ⟨by decide, by decide, by decide⟩

theorem sampleFork_commits : ∀ block ∈ sampleFork, sampleIdentity.Commits block := by
  intro block member
  simp only [sampleFork, mem_cons, not_mem_nil, or_false] at member
  rcases member with rfl | rfl | rfl | rfl <;> exact ⟨by decide, by decide, by decide⟩

/-- A tick that may walk three blocks back. -/
def sampleDeepTick : List Block → TickEnv := sampleTick 3 (by decide)

/-- A service over genesis that has followed the first chain. -/
def sampleFollowed : ChainHeadService :=
  ((sampleService (anchorOf sampleGenesis) 1).tick (sampleDeepTick sampleChain)).service

theorem sampleFollowed_fromAnchor :
    ChainHeadService.FromAnchor sampleIdentity sampleGenesis sampleFollowed :=
  .tick _ (.anchored rfl) (sampleValidator_respects sampleChain_commits) fun _ => by decide +kernel

/-- After a reorg onto the longer chain the abandoned block 22 is still retained, and compares with the
new tip as two blocks above genesis do with three. -/
theorem ChainHeadService.work_comparable_reorganised :
    let service := (sampleFollowed.tick (sampleTick 3 (by decide) sampleFork)).service
    ∃ abandoned ∈ service.current.blocks, abandoned.hash = 22 ∧
      compare abandoned.work.value service.current.tip.work.value =
        compare (sampleIdentity.pathWork [20, 21, 22]) (sampleIdentity.pathWork [20, 31, 32, 33]) := by
  intro service
  have reached : FromAnchor sampleIdentity sampleGenesis service :=
    .tick _ sampleFollowed_fromAnchor (sampleValidator_respects sampleFork_commits)
      fun _ => by decide +kernel
  have retained : ∃ abandoned ∈ service.current.blocks, abandoned.hash = 22 := by decide +kernel
  obtain ⟨abandoned, member, hash⟩ := retained
  have tip : service.current.tip.hash = 33 := by decide +kernel
  have comparable := work_comparable (sampleChain_commits _ mem_cons_self) reached member
    (mem_cons_self : service.current.tip ∈ service.current.blocks)
  rw [hash, tip] at comparable
  have genesis : AncestorPath sampleIdentity 20 20 [20] := .anchor
  have first : AncestorPath sampleIdentity 20 21 [20, 21] :=
    @AncestorPath.child sampleIdentity 20 21 [20] genesis (by decide)
  have older : AncestorPath sampleIdentity 20 22 [20, 21, 22] :=
    @AncestorPath.child sampleIdentity 20 22 [20, 21] first (by decide)
  have sibling : AncestorPath sampleIdentity 20 31 [20, 31] :=
    @AncestorPath.child sampleIdentity 20 31 [20] genesis (by decide)
  have second : AncestorPath sampleIdentity 20 32 [20, 31, 32] :=
    @AncestorPath.child sampleIdentity 20 32 [20, 31] sibling (by decide)
  have newer : AncestorPath sampleIdentity 20 33 [20, 31, 32, 33] :=
    @AncestorPath.child sampleIdentity 20 33 [20, 31, 32] second (by decide)
  exact ⟨abandoned, member, hash, comparable.2.2 _ _ older newer⟩

end Zaino.ChainHead
