import Zaino.ChainHead.Rollback

/-!
# Convergence

A tick over a validator whose answers describe one unchanging chain brings the window onto that chain:
it walks back from the first served block that does not continue the window to a canonical block of
it, lays the validator's branch down from there, and extends it to the validator's tip. Nothing heavier
is retained than the validator's tip by assumption, so the tick ends there.

`Climb` holds what such a tick knows: the validator's chain, the block of it that the window is sure to
hold, and the work accumulated up to there. The work of every further block of the chain is then
determined (`Climb.workAt`), which is why no step of the tick can fail on an overflow, and why no block
laid down on the way is heavier than the tip.
-/

namespace Zaino.ChainHead

open Zaino Library Finality List Fallible MapBackedSnapshot TickEnv Option Height

/-- The validator's answers describe one chain from genesis to `top`, oldest block first, whenever they
are asked for. What it answers about hashes that are not of the chain does not matter. -/
structure Validator.ServesChain (validator : Validator) (chain : List Block) (top : Block) : Prop where
  ends : chain.getLast? = some top
  heights : ∀ {i : Nat} {block : Block}, chain[i]? = some block → block.header.height.value = i
  linked : ∀ {i : Nat} {older newer : Block}, chain[i]? = some older →
    chain[i + 1]? = some newer → newer.header.prevHash = older.header.hash
  tip : ∀ requests, validator.getChainTip requests = some ⟨top.header.hash, top.header.height⟩
  atHeight : ∀ requests height, validator.getBlock requests height =
    match chain[height.value]? with
    | some block => .found block
    | none => .absent
  byHash : ∀ requests, ∀ block ∈ chain,
    validator.getBlockByHash requests block.header.hash = .found block
  roots : ∀ requests, ∀ block ∈ chain,
    validator.getCommitmentTreeRoots requests block.header.hash = true

namespace Validator.ServesChain

variable {validator : Validator} {chain : List Block} {top : Block}

variable (serves : validator.ServesChain chain top)

include serves

theorem length : chain.length = top.header.height.value + 1 := by
  have ends := serves.ends
  rw [getLast?_eq_getElem?] at ends
  have height := serves.heights ends
  have nonempty : chain ≠ [] := by
    rintro rfl
    cases ends
  have pos := length_pos_iff.mpr nonempty
  omega

theorem atTop : chain[top.header.height.value]? = some top := by
  have ends := serves.ends
  rw [getLast?_eq_getElem?, serves.length, Nat.add_sub_cancel] at ends
  exact ends

theorem exists_at {i : Nat} (le : i ≤ top.header.height.value) :
    ∃ block, chain[i]? = some block := by
  have below : i < chain.length := by
    rw [serves.length]
    omega
  exact ⟨chain[i], List.getElem?_eq_getElem below⟩

theorem le_top {i : Nat} {block : Block} (at_ : chain[i]? = some block) :
    i ≤ top.header.height.value := by
  have below := (List.getElem?_eq_some_iff.mp at_).1
  rw [serves.length] at below
  omega

theorem commits {identity : HeaderIdentity} (respects : validator.Respects identity) {i : Nat}
    {block : Block} (at_ : chain[i]? = some block) : identity.Commits block := by
  have served : validator.getBlock 0 block.header.height = .found block := by
    rw [serves.atHeight, serves.heights at_, at_]
  exact respects block (.atHeight served)

end Validator.ServesChain

theorem total_request : request.Total fun _ => True :=
  fun s => ⟨s.requests, _, returns_request.mpr ⟨rfl, rfl⟩, trivial⟩

/-! ## Work along the chain -/

/-- The work of the chain's blocks above position `fork`, up to position `i`. -/
def branchWork (chain : List Block) (fork i : Nat) : Nat :=
  (((chain.take (i + 1)).drop (fork + 1)).map fun block => block.header.bits.toWork.value).sum

theorem branchWork_self (chain : List Block) (fork : Nat) : branchWork chain fork fork = 0 := by
  have none_above : (chain.take (fork + 1)).drop (fork + 1) = [] :=
    drop_eq_nil_of_le (length_take_le _ _)
  rw [branchWork, none_above]
  rfl

theorem branchWork_succ {chain : List Block} {fork i : Nat} {block : Block} (le : fork ≤ i)
    (at_ : chain[i + 1]? = some block) : branchWork chain fork (i + 1) =
      branchWork chain fork i + block.header.bits.toWork.value := by
  have below := (List.getElem?_eq_some_iff.mp at_).1
  have taken : chain.take (i + 1 + 1) = chain.take (i + 1) ++ [block] := by
    rw [List.take_add_one, at_]
    rfl
  have enough : fork + 1 ≤ (chain.take (i + 1)).length := by
    rw [length_take]
    omega
  rw [branchWork, taken, drop_append_of_le_length enough, map_append, sum_append,
    map_singleton, sum_singleton]
  rfl

/-- What a tick over one chain knows: the chain's block at `fork` has a path from the window's anchor
along which the work is `base`, and the work up to the top fits. -/
structure Climb (env : TickEnv) (identity : HeaderIdentity) (anchor : BlockHash) (chain : List Block)
    (top : Block) (fork base : Nat) : Prop where
  respects : env.validator.Respects identity
  serves : env.validator.ServesChain chain top
  path : ∃ block path, chain[fork]? = some block ∧
    AncestorPath identity anchor block.header.hash path ∧ identity.pathWork path = base
  fits : base + branchWork chain fork top.header.height.value < 2 ^ 128

/-- The work accumulated to the chain's block at a position. -/
def Climb.workAt (chain : List Block) (fork base i : Nat) : Nat := base + branchWork chain fork i

/-- A window that sums its works from the anchor and retains nothing heavier than `bound`. -/
structure Window (identity : HeaderIdentity) (anchor : BlockHash) (bound : Nat)
    (g : MapBackedSnapshot) : Prop where
  works : WorksFrom identity anchor g
  bounded : g.Retains fun block => block.work.value ≤ bound

/-- The window's tip is the chain's block at a position. -/
structure Climb.Reached (identity : HeaderIdentity) (anchor : BlockHash) (chain : List Block)
    (bound i : Nat) (g : MapBackedSnapshot) : Prop where
  window : Window identity anchor bound g
  tip : ∃ block, chain[i]? = some block ∧ g.tip.hash = block.header.hash

namespace Climb

variable {env : TickEnv} {identity : HeaderIdentity} {anchor : BlockHash} {chain : List Block}
  {top : Block} {fork base : Nat} {g : MapBackedSnapshot}

variable {i limit : Nat} {block : Block} {retained : ChainHeadBlock}
  {walk : ChainHeadBlock × List BranchBlock} (climb : Climb env identity anchor chain top fork base)

include climb

theorem path_at (le : fork ≤ i) (at_ : chain[i]? = some block) :
    ∃ path, AncestorPath identity anchor block.header.hash path ∧
      identity.pathWork path = workAt chain fork base i := by
  induction i, le using Nat.le_induction generalizing block with
  | base =>
    obtain ⟨forkBlock, path, atFork, ancestors, sum⟩ := climb.path
    rw [atFork] at at_
    cases at_
    exact ⟨path, ancestors, by rw [sum, workAt, branchWork_self, Nat.add_zero]⟩
  | succ i le ih =>
    obtain ⟨older, atOlder⟩ : ∃ older, chain[i]? = some older :=
      climb.serves.exists_at (Nat.le_of_succ_le (climb.serves.le_top at_))
    obtain ⟨path, ancestors, sum⟩ := ih atOlder
    have commits := climb.serves.commits climb.respects at_
    have commitsOlder := climb.serves.commits climb.respects atOlder
    have isParent : older.header.hash = identity.parent block.header.hash :=
      (climb.serves.linked atOlder at_).symm.trans commits.parent
    refine ⟨path ++ [block.header.hash], .child (isParent ▸ ancestors) ?_, ?_⟩
    · rw [← isParent, ← commits.height, ← commitsOlder.height, climb.serves.heights at_,
        climb.serves.heights atOlder]
    · rw [HeaderIdentity.pathWork_append, sum, ← commits.work, workAt, workAt, branchWork_succ le at_,
        Nat.add_assoc]

/-- Whatever block of the chain the window retains carries the work determined by its position. -/
theorem work_eq (le : fork ≤ i)
    (at_ : chain[i]? = some block) (accumulates : Accumulates identity anchor retained)
    (hash : retained.hash = block.header.hash) :
    retained.work.value = workAt chain fork base i := by
  obtain ⟨path, ancestors, sum⟩ := accumulates.path
  obtain ⟨path', ancestors', sum'⟩ := climb.path_at le at_
  rw [hash] at ancestors
  rw [sum, ancestors.unique ancestors', sum']

theorem workAt_le (le : fork ≤ i) (le' : i ≤ top.header.height.value) :
    workAt chain fork base i ≤ workAt chain fork base top.header.height.value := by
  have rises : ∀ distance, i + distance ≤ top.header.height.value →
      workAt chain fork base i ≤ workAt chain fork base (i + distance) := by
    intro distance
    induction distance with
    | zero => exact fun _ => Nat.le_refl _
    | succ distance ih =>
      intro within
      obtain ⟨block, at_⟩ := climb.serves.exists_at within
      have next : branchWork chain fork (i + distance + 1) = _ :=
        branchWork_succ (show fork ≤ i + distance by omega) at_
      refine Nat.le_trans (ih (by omega)) ?_
      rw [workAt, workAt, ← Nat.add_assoc, next]
      omega
  have whole := rises (top.header.height.value - i) (by omega)
  rwa [Nat.add_sub_cancel' le'] at whole

/-! ## Steps of the climb -/

/-- The bound that the top's work sets. -/
abbrev bound (chain : List Block) (top : Block) (fork base : Nat) : Nat :=
  workAt chain fork base top.header.height.value

omit climb in
/-- The window's tip is the chain's block at a position, and nothing it retains is heavier than the
top. -/
abbrev Reaches (_ : Climb env identity anchor chain top fork base) :
    Nat → MapBackedSnapshot → Prop :=
  Reached identity anchor chain (bound chain top fork base)

theorem Reached.tip_height (reached : Reached identity anchor chain limit i g) :
    g.tip.height.value = i := by
  obtain ⟨block, at_, hash⟩ := reached.tip
  have described := (reached.window.works.works g.tip mem_cons_self).described.1
  rw [described, hash, ← (climb.serves.commits climb.respects at_).height, climb.serves.heights at_]

/-- The next block of the chain, however it was obtained, extends the window. -/
theorem extend_ok (le : fork ≤ i) (reached : climb.Reaches i g) (at_ : chain[i + 1]? = some block)
    {built : ChainHeadBlock} (accumulates : Accumulates identity anchor built)
    (hash : built.hash = block.header.hash) :
    ∃ next, g.extend built = (.ok (), next) ∧ next.tip = built ∧ climb.Reaches (i + 1) next := by
  obtain ⟨older, atOlder, tipHash⟩ := reached.tip
  have commits := climb.serves.commits climb.respects at_
  have child : built.parentHash = g.tip.hash := by
    rw [accumulates.described.2, hash, ← commits.parent, climb.serves.linked atOlder at_, tipHash]
  have above : g.tip.height.checkedAdd 1 = some built.height := by
    rw [checkedAdd_eq_some, accumulates.described.1, hash, ← commits.height,
      climb.serves.heights at_, reached.tip_height climb]
  have extended : g.extend built = (.ok (),
      { g with
        heightsToHashes := g.heightsToHashes.insert built.height built.hash }.replaceTip built) :=
    if_pos ⟨child, above⟩
  have light : built.work.value ≤ bound chain top fork base := by
    rw [climb.work_eq (Nat.le_succ_of_le le) at_ accumulates hash]
    exact climb.workAt_le (Nat.le_succ_of_le le) (climb.serves.le_top at_)
  have moved : Moved (Accumulates identity anchor) (fun _ => False) g _ :=
    .extend .refl accumulates extended
  exact ⟨_, extended, rfl, ⟨reached.window.works.moved moved,
    reached.window.bounded.extend light extended⟩, block, at_, hash⟩

theorem blockAtHeight_total (height : Height) :
    (env.blockAtHeight height).Total fun answer => answer = chain[height.value]? := by
  refine total_request.bind fun requests _ => ?_
  rw [climb.serves.atHeight]
  cases chain[height.value]? with
  | none => exact total_pure rfl
  | some block => exact total_pure rfl

theorem blockAtHash_total (member : block ∈ chain) :
    (env.blockAtHash block.header.hash).Total fun answer => answer = some block := by
  refine total_request.bind fun requests _ => ?_
  rw [climb.serves.byHash _ block member]
  exact total_pure rfl

theorem treeRoots_total (member : block ∈ chain) :
    (env.treeRoots block.header.hash).Total fun _ => True := by
  refine total_request.bind fun requests _ => ?_
  rw [climb.serves.roots _ block member]
  exact total_pure trivial

/-- The next block of the chain is built onto the tip, its work included. -/
theorem blockToChainblock_total (le : fork ≤ i) (reached : climb.Reaches i g)
    (at_ : chain[i + 1]? = some block) : (env.blockToChainblock g.tip block).Total fun built =>
      Accumulates identity anchor built ∧ built.hash = block.header.hash := by
  obtain ⟨older, atOlder, tipHash⟩ := reached.tip
  have accumulates := reached.window.works.works g.tip mem_cons_self
  have sum : g.tip.work.value + block.header.bits.toWork.value =
      workAt chain fork base (i + 1) := by
    rw [climb.work_eq le atOlder accumulates tipHash, workAt, workAt, branchWork_succ le at_,
      Nat.add_assoc]
  have fits : g.tip.work.value + block.header.bits.toWork.value < 2 ^ 128 := by
    rw [sum]
    exact Nat.lt_of_le_of_lt
      (climb.workAt_le (Nat.le_succ_of_le le) (climb.serves.le_top at_)) climb.fits
  have added : g.tip.work.checkedAdd block.header.bits.toWork = some ⟨_, fits⟩ := dif_pos fits
  have serves : env.validator.Serves block := by
    refine .atHeight (show env.validator.getBlock 0 block.header.height = .found block from ?_)
    rw [climb.serves.atHeight, climb.serves.heights at_, at_]
  have inherits : Accumulates identity anchor (retainedAs block ⟨_, fits⟩) := by
    refine Accumulates.inherited climb.respects accumulates serves ?_ ?_ added
    · rw [tipHash, climb.serves.linked atOlder at_]
    · rw [climb.serves.heights at_, reached.tip_height climb]
  refine (climb.treeRoots_total (mem_of_getElem? at_)).bind fun _ _ => ?_
  intro s
  refine ⟨retainedAs block ⟨_, fits⟩, s, ?_, inherits, rfl⟩
  refine returns_bind.mpr ⟨⟨_, fits⟩, s, .ofExcept ?_, rfl⟩
  rw [accumulatedWork, added]

/-- A branch block that is a given block of the chain. -/
def Is (identity : HeaderIdentity) (anchor : BlockHash) (block : Block) : BranchBlock → Prop
  | .retained stored => Accumulates identity anchor stored ∧ stored.hash = block.header.hash
  | .fetched served => served = block

/-- Branch blocks, oldest first, that are the chain's blocks above a position. -/
def Lays (identity : HeaderIdentity) (anchor : BlockHash) (chain : List Block) (i : Nat)
    (pending : List BranchBlock) : Prop :=
  ∀ j (branchBlock : BranchBlock), pending[j]? = some branchBlock →
    ∃ block, chain[i + 1 + j]? = some block ∧ Is identity anchor block branchBlock

theorem layDown_total (le : fork ≤ i) {pending : List BranchBlock}
    (lays : Lays identity anchor chain i pending) (reached : climb.Reaches i g) :
    (env.layDown g g.tip pending).Total fun laid =>
      climb.Reaches (i + pending.length) laid.1 := by
  induction pending generalizing g i with
  | nil => exact total_pure reached
  | cons first rest ih =>
    obtain ⟨block, at_, is⟩ := lays 0 first rfl
    have built : (env.toChainHeadBlock g.tip first).Total fun built =>
        Accumulates identity anchor built ∧ built.hash = block.header.hash := by
      cases first with
      | retained stored => exact total_pure is
      | fetched served =>
        obtain rfl : served = block := is
        exact climb.blockToChainblock_total le reached at_
    refine built.bind fun built ⟨accumulates, hash⟩ => ?_
    obtain ⟨next, extended, tip, reached'⟩ := climb.extend_ok le reached at_ accumulates hash
    rw [extended]
    refine (total_pure rfl : (accept (.ok (), next)).Total (· = next)).bind ?_
    rintro _ rfl
    have later : Lays identity anchor chain (i + 1) rest := by
      intro j branchBlock member
      obtain ⟨block, at_, is⟩ := lays (j + 1) branchBlock member
      refine ⟨block, ?_, is⟩
      rw [← at_]
      congr 1
      omega
    rw [← tip, length_cons, Nat.add_comm rest.length 1, ← Nat.add_assoc]
    exact ih (Nat.le_succ_of_le le) later reached'

/-! ## The walk -/

/-- The window's canonical chain holds the chain's block at a position. -/
def Holds (g : MapBackedSnapshot) (chain : List Block) (i : Nat) : Prop :=
  ∃ block, chain[i]? = some block ∧
    g.heightsToHashes.lookup block.header.height = some block.header.hash

/-- A retained block of the chain lies on the branch below the block at its position. -/
theorem parent_hash {older newer : Block} (atOlder : chain[i]? = some older)
    (at_ : chain[i + 1]? = some newer) (accumulates : Accumulates identity anchor retained)
    (hash : retained.hash = newer.header.hash) : retained.parentHash = older.header.hash := by
  rw [accumulates.described.2, hash, ← (climb.serves.commits climb.respects at_).parent,
    climb.serves.linked atOlder at_]

/-- Where a walk down the chain ends: at a canonical block of it, at or above the one that the window
is sure to hold. -/
structure Walked (identity : HeaderIdentity) (anchor : BlockHash) (g : MapBackedSnapshot)
    (chain : List Block) (fork i : Nat) (walk : ChainHeadBlock × List BranchBlock) : Prop where
  retained : g.blockByHash walk.1.hash = some walk.1
  canonical : g.isOnBestChain walk.1.reference = true
  ends : ∃ joint block, fork ≤ joint ∧ joint + walk.2.length = i ∧ chain[joint]? = some block ∧
    walk.1.hash = block.header.hash ∧ Lays identity anchor chain joint walk.2.reverse

omit climb in
/-- One more branch block on top of a walk. -/
theorem Walked.snoc (walked : Walked identity anchor g chain fork i walk)
    (at_ : chain[i + 1]? = some block) {branchBlock : BranchBlock}
    (is : Is identity anchor block branchBlock) :
    Walked identity anchor g chain fork (i + 1) (walk.1, branchBlock :: walk.2) := by
  obtain ⟨joint, jointBlock, above, length, atJoint, hash, lays⟩ := walked.ends
  refine ⟨walked.retained, walked.canonical, joint, jointBlock, above, ?_, atJoint, hash, ?_⟩
  · rw [length_cons]
    omega
  · intro j laid member
    rw [reverse_cons, getElem?_append, length_reverse] at member
    split at member
    · exact lays j laid member
    · next beyond =>
      have last : j - walk.2.length = 0 := by
        by_contra further
        have none_there : ([branchBlock] : List BranchBlock)[j - walk.2.length]? = none :=
          getElem?_eq_none (by simp only [length_singleton]; omega)
        rw [none_there] at member
        cases member
      rw [last] at member
      cases member
      refine ⟨block, ?_, is⟩
      rw [← at_]
      congr 1
      omega

theorem descend_total (works : WorksFrom identity anchor g) (holds : Holds g chain fork)
    {budget : Nat} (le : fork ≤ i) (within : i < fork + budget) (at_ : chain[i]? = some block) :
    (env.descend g budget block.header.hash).Total (Walked identity anchor g chain fork i) := by
  obtain ⟨forkBlock, atFork, listed⟩ := holds
  obtain ⟨held, retainedHeld, heldHeight⟩ := works.represents.listed listed
  induction budget generalizing i block with
  | zero => omega
  | succ budget ih =>
    -- Below the fork there is nothing to walk to, so above it the walk goes on one block down.
    have lower : i ≠ fork → ∃ j older, i = j + 1 ∧ fork ≤ j ∧ j < fork + budget ∧
        chain[j]? = some older := by
      intro above
      obtain ⟨older, atOlder⟩ := climb.serves.exists_at
        (show i - 1 ≤ top.header.height.value by have := climb.serves.le_top at_; omega)
      exact ⟨i - 1, older, by omega, by omega, by omega, atOlder⟩
    unfold descend
    split
    · next prev found =>
      obtain ⟨accumulates, hash⟩ := works.accumulates found
      split
      · next onChain =>
        refine total_pure ⟨?_, onChain, i, block, le, rfl, at_, hash, fun j laid member => ?_⟩
        · rw [hash]
          exact found
        · cases member
      · next offChain =>
        have above : i ≠ fork := by
          rintro rfl
          rw [atFork] at at_
          cases at_
          refine offChain (decide_eq_true ?_)
          rw [retainedHeld] at found
          cases found
          change g.heightsToHashes.lookup held.height = some held.hash
          rw [heldHeight, hash]
          exact listed
        obtain ⟨j, older, rfl, le', within', atOlder⟩ := lower above
        rw [climb.parent_hash atOlder at_ accumulates hash]
        refine (ih le' within' atOlder).bind fun walk walked => ?_
        exact total_pure (walked.snoc at_ ⟨accumulates, hash⟩)
    · next absent =>
      have above : i ≠ fork := by
        rintro rfl
        rw [atFork] at at_
        cases at_
        rw [retainedHeld] at absent
        cases absent
      obtain ⟨j, older, rfl, le', within', atOlder⟩ := lower above
      refine (climb.blockAtHash_total (mem_of_getElem? at_)).bind ?_
      rintro _ rfl
      dsimp only
      rw [climb.serves.linked atOlder at_]
      refine (ih le' within' atOlder).bind fun walk walked => ?_
      exact total_pure (walked.snoc at_ rfl)

omit climb in
/-- Rewinding to where a walk ended succeeds. -/
theorem rewindTo_ok (walked : Walked identity anchor g chain fork i walk) :
    ∃ next, g.rewindTo walk.1.reference = (.ok (), next) ∧ next.tip = walk.1 := by
  have retained := walked.retained
  by_cases atTip : walk.1.reference = g.tip.reference
  · refine ⟨g, if_pos atTip, ?_⟩
    have hash : g.tip.hash = walk.1.hash := (congrArg BlockRef.hash atTip).symm
    rw [blockByHash, if_pos hash] at retained
    exact some.inj retained
  · have notTip : g.tip.hash ≠ walk.1.hash := by
      intro same
      rw [blockByHash, if_pos same] at retained
      exact atTip (congrArg ChainHeadBlock.reference (some.inj retained)).symm
    rw [blockByHash, if_neg notTip] at retained
    have lookup : g.others.lookup walk.1.reference.hash = some walk.1 := retained
    refine ⟨{ g with
      heightsToHashes := g.heightsToHashes.retain fun height _ => height ≤ walk.1.height
      }.replaceTip walk.1, ?_, rfl⟩
    rw [rewindTo, if_neg atTip, if_pos walked.canonical, lookup]
    rfl

/-- A reorg onto a block of the chain reaches it, if the window holds a block of the chain within the
walk's limit below it. -/
theorem handleReorg_total (window : Window identity anchor (bound chain top fork base) g) (holds : Holds g chain fork)
    (le : fork ≤ i) (within : i ≤ fork + env.config.maxDepth) (at_ : chain[i + 1]? = some block) :
    (env.handleReorg g (.fetched block)).Total (climb.Reaches (i + 1)) := by
  obtain ⟨older, atOlder⟩ := climb.serves.exists_at
    (Nat.le_of_succ_le (climb.serves.le_top at_))
  refine total_get.bind fun _ _ => (total_modify _).bind fun _ _ => ?_
  change (env.descend g (env.config.maxDepth + 1) block.header.prevHash >>= _).Total _
  rw [climb.serves.linked atOlder at_]
  refine (climb.descend_total window.works holds le (by omega) atOlder).bind ?_
  rintro ⟨forkPoint, branch⟩ walked
  obtain ⟨next, rewound, tip⟩ := rewindTo_ok walked
  obtain ⟨joint, jointBlock, above, length, atJoint, hash, _⟩ := walked.ends
  have is : Is identity anchor block (.fetched block) := rfl
  obtain ⟨joint', _, _, length', _, _, lays⟩ := (walked.snoc at_ is).ends
  have same : joint' = joint := by
    rw [length_cons] at length'
    omega
  subst same
  have moved : Moved (Accumulates identity anchor) (fun _ => False) g next :=
    .rewind .refl walked.retained walked.canonical rewound tip
  have reached : climb.Reaches joint' next :=
    ⟨⟨window.works.moved moved, window.bounded.rewindTo rewound⟩, jointBlock, atJoint, by rw [tip, hash]⟩
  change (accept (g.rewindTo forkPoint.reference) >>= _).Total _
  rw [rewound]
  refine (total_pure rfl : (accept (.ok (), next)).Total (· = next)).bind ?_
  rintro _ rfl
  rw [reverse_cons] at lays
  have laid := climb.layDown_total above lays reached
  rw [tip] at laid
  refine laid.bind fun final reached' => total_pure ?_
  rw [length_append, length_reverse, length_singleton, ← Nat.add_assoc, length]
    at reached'
  exact reached'

/-! ## The phases of the tick -/

/-- A served block that continues the window's tip extends it. -/
theorem applyServed_reached (le : fork ≤ i) (reached : climb.Reaches i g)
    (at_ : chain[i + 1]? = some block) : (env.applyServed g block).Total
      (climb.Reaches (i + 1)) := by
  obtain ⟨older, atOlder, tipHash⟩ := reached.tip
  have continues : block.header.prevHash = g.bestTip.hash :=
    (climb.serves.linked atOlder at_).trans tipHash.symm
  rw [applyServed, if_pos continues]
  refine (climb.blockToChainblock_total le reached at_).bind fun built ⟨accumulates, hash⟩ => ?_
  obtain ⟨next, extended, _, reached'⟩ := climb.extend_ok le reached at_ accumulates hash
  rw [extended]
  exact total_pure reached'

/-- The window's tip is where the climb can start from: on the chain, or within the walk's limit above
a block of it that the window holds. -/
def Ready (identity : HeaderIdentity) (anchor : BlockHash) (chain : List Block)
    (limit fork maxDepth : Nat) (g : MapBackedSnapshot) : Prop :=
  (fork ≤ g.tip.height.value ∧
      Reached identity anchor chain limit g.tip.height.value g) ∨
    (Window identity anchor limit g ∧ Holds g chain fork ∧ fork ≤ g.tip.height.value ∧
      g.tip.height.value ≤ fork + maxDepth)

theorem applyServed_total (ready : Ready identity anchor chain (bound chain top fork base) fork env.config.maxDepth g)
    (at_ : chain[g.tip.height.value + 1]? = some block) : (env.applyServed g block).Total
      (climb.Reaches (g.tip.height.value + 1)) := by
  rcases ready with ⟨le, reached⟩ | ⟨window, holds, le, within⟩
  · exact climb.applyServed_reached le reached at_
  · by_cases continues : block.header.prevHash = g.bestTip.hash
    · obtain ⟨older, atOlder⟩ := climb.serves.exists_at
        (Nat.le_of_succ_le (climb.serves.le_top at_))
      have tipHash : g.tip.hash = older.header.hash :=
        continues.symm.trans (climb.serves.linked atOlder at_)
      exact climb.applyServed_reached le ⟨window, older, atOlder, tipHash⟩ at_
    · rw [applyServed, if_neg continues]
      exact climb.handleReorg_total window holds le within at_

theorem extendTo_total {fuel : Nat} (enough : top.header.height.value < g.tip.height.value + fuel)
    (ready : Ready identity anchor chain (bound chain top fork base) fork env.config.maxDepth g)
    (start : g.tip.height.value < top.header.height.value ∨
      climb.Reaches top.header.height.value g) : (env.extendTo top.header.height fuel g).Total
      (climb.Reaches top.header.height.value) := by
  induction fuel generalizing g with
  | zero =>
    rcases start with below | reached
    · omega
    · have height := reached.tip_height climb
      omega
  | succ fuel ih =>
    unfold extendTo
    by_cases below : g.bestTip.height < top.header.height
    · rw [if_pos below]
      have below' : g.tip.height.value < top.header.height.value := below
      have next : (nextHeight g.bestTip.height).value = g.tip.height.value + 1 := by
        have fits : g.tip.height.value + 1 ≤ maxHeight :=
          Nat.le_trans below' top.header.height.bounded
        have added : g.bestTip.height.checkedAdd 1 = some ⟨g.tip.height.value + 1, fits⟩ :=
          checkedAdd_eq_some.mpr rfl
        rw [nextHeight, added]
        rfl
      obtain ⟨block, at_⟩ := climb.serves.exists_at (Nat.succ_le_of_lt below')
      refine (climb.blockAtHeight_total _).bind ?_
      rintro _ rfl
      rw [next, at_]
      refine (climb.applyServed_total ready at_).bind fun g' reached => ?_
      have height := reached.tip_height climb
      refine ih (by omega) (Or.inl ⟨?_, height ▸ reached⟩) ?_
      · rcases ready with ⟨le, _⟩ | ⟨_, _, le, _⟩ <;> omega
      · by_cases last : g.tip.height.value + 1 = top.header.height.value
        · exact Or.inr (last ▸ reached)
        · exact Or.inl (by omega)
    · rw [if_neg below]
      rcases start with below' | reached
      · exact absurd below' below
      · exact total_pure reached

/-- Heights above the validator's tip are absent, so the check settles on its tip. -/
theorem check_settles {post : MapBackedSnapshot → Prop}
    (high : top.header.height.value ≤ g.tip.height.value)
    (near : g.tip.height.value ≤ top.header.height.value + env.config.maxDepth)
    (settles : (if top.header.hash ≠ g.bestTip.hash then env.handleReorg g (.fetched top)
      else pure g).Total post) : (env.checkForNonhigherReorgs g).Total post := by
  have within : ∀ target : Height, top.header.height.value ≤ target.value →
      ¬ target.value + env.config.maxDepth < g.bestTip.height.value := by
    intro target above
    change ¬ target.value + env.config.maxDepth < g.tip.height.value
    omega
  have atTop : ∀ (target : Height) (lower : TickM MapBackedSnapshot),
      target.value = top.header.height.value → (env.checkAt g target lower).Total post := by
    intro target lower same
    rw [checkAt, if_neg (within target (Nat.le_of_eq same.symm))]
    refine (climb.blockAtHeight_total target).bind ?_
    rintro _ rfl
    rw [same, climb.serves.atTop]
    exact settles
  have down : ∀ (n : Nat) (bounded : n ≤ maxHeight), top.header.height.value ≤ n →
      (env.checkDown g n bounded).Total post := by
    intro n
    induction n with
    | zero =>
      intro bounded above
      exact atTop _ _ (by change 0 = _; omega)
    | succ n ih =>
      intro bounded above
      by_cases same : n + 1 = top.header.height.value
      · exact atTop _ _ same
      · rw [checkDown, checkAt, if_neg (within ⟨n + 1, bounded⟩ above)]
        refine (climb.blockAtHeight_total _).bind ?_
        rintro _ rfl
        have absent : chain[n + 1]? = none := by
          refine getElem?_eq_none ?_
          rw [climb.serves.length]
          omega
        rw [absent]
        exact ih _ (by omega)
  exact down _ _ high

/-- At the validator's tip the check finds nothing to do. -/
theorem check_reached (reached : climb.Reaches top.header.height.value g) :
    (env.checkForNonhigherReorgs g).Total (climb.Reaches top.header.height.value) := by
  have height := reached.tip_height climb
  obtain ⟨block, at_, hash⟩ := reached.tip
  cases at_.symm.trans climb.serves.atTop
  have agrees : ¬ top.header.hash ≠ g.bestTip.hash := fun differs => differs hash.symm
  refine climb.check_settles (Nat.le_of_eq height.symm) (by omega) ?_
  rw [if_neg agrees]
  exact total_pure reached

/-- A window that reaches at least as high as the validator, on another chain, is brought down to the
validator's tip. -/
theorem check_total (window : Window identity anchor (bound chain top fork base) g)
    (holds : Holds g chain fork) (below : fork < top.header.height.value)
    (within : top.header.height.value ≤ fork + env.config.maxDepth + 1)
    (near : g.tip.height.value ≤ top.header.height.value + env.config.maxDepth)
    (apart : g.tip.hash ≠ top.header.hash) (high : top.header.height.value ≤ g.tip.height.value) :
    (env.checkForNonhigherReorgs g).Total (climb.Reaches top.header.height.value) := by
  refine climb.check_settles high near ?_
  rw [if_pos (show top.header.hash ≠ g.bestTip.hash from fun agree => apart agree.symm)]
  obtain ⟨i, top_eq⟩ : ∃ i, top.header.height.value = i + 1 :=
    ⟨top.header.height.value - 1, by omega⟩
  have at_ := climb.serves.atTop
  rw [top_eq] at at_ within below ⊢
  exact climb.handleReorg_total window holds (Nat.le_of_lt_succ below)
    (Nat.le_of_succ_le_succ within) at_

omit climb in
theorem trim_total (reached : Reached identity anchor chain limit i g) :
    (env.trim g).Total (Reached identity anchor chain limit i) := by
  refine (total_modify _).bind fun _ _ => total_get.bind fun s _ => ?_
  refine total_pure ⟨⟨⟨?_, ?_⟩, ?_⟩, reached.tip⟩
  · exact reached.window.works.represents.removeFinalisedBlocks _
  · exact reached.window.works.works.removeFinalisedBlocks _
  · exact reached.window.bounded.removeFinalisedBlocks _

omit climb in
theorem publishHorizon_total (g : MapBackedSnapshot) :
    (publishHorizon g).Total fun _ => True := by
  refine total_get.bind fun s _ => ?_
  dsimp only
  split
  · exact total_pure trivial
  · split
    · exact (total_modify _).bind fun _ _ => total_modify _
    · exact total_modify _

/-- Nothing retained is heavier than the validator's tip, so the tick stays there. -/
theorem switchToHeaviest_total (below : fork ≤ top.header.height.value)
    (reached : climb.Reaches top.header.height.value g) : (env.switchToHeaviest g).Total
      (climb.Reaches top.header.height.value) := by
  obtain ⟨block, at_, hash⟩ := reached.tip
  have tipWork := climb.work_eq below at_
    (reached.window.works.works g.tip mem_cons_self) hash
  have light : ¬ g.tip.work.value < (g.heaviestBlock env.visit).work.value := by
    rw [tipWork]
    exact Nat.not_lt_of_le
      (reached.window.bounded _ (heaviestBlock_spec g env.visit).1)
  rw [switchToHeaviest, if_neg light]
  exact total_pure reached

/-- From the window it starts on, the tick reaches the validator's tip once its walks have. -/
theorem nextGraph_total (below : fork ≤ top.header.height.value) {previous started : MapBackedSnapshot}
    (start : (env.startingGraph previous top.header.height).Total (· = started))
    (extends_ : (env.extendTo top.header.height env.fuel started).Total fun g' =>
      (env.checkForNonhigherReorgs g').Total (climb.Reaches top.header.height.value)) :
    (env.nextGraph previous top.header.height).Total (climb.Reaches top.header.height.value) := by
  have caught : (env.caughtUp previous top.header.height).Total
      (climb.Reaches top.header.height.value) := by
    refine start.bind ?_
    rintro _ rfl
    refine extends_.bind fun extended checks => checks.bind fun checked reached => ?_
    exact trim_total reached
  refine caught.bind fun g' reached => (publishHorizon_total g').bind fun _ _ => ?_
  exact climb.switchToHeaviest_total below reached

end Climb

/-! ## Convergence -/

variable {identity : HeaderIdentity} {anchor : BlockHash} {g : MapBackedSnapshot}
  {validator : Validator} {chain : List Block} {top : Block}

variable (works : WorksFrom identity anchor g) (respects : validator.Respects identity)
  (serves : validator.ServesChain chain top) (tip : g.tip.hash = top.header.hash)

include works respects serves tip

/-- Below a tip that is the chain's top, the canonical chain is the validator's. -/
theorem WorksFrom.canonical_on_chain {height : Height} {hash : BlockHash}
    (listed : g.heightsToHashes.lookup height = some hash) :
    ∃ block, chain[height.value]? = some block ∧ block.header.hash = hash := by
  have tipHeight : g.tip.height = top.header.height := by
    rw [(works.works g.tip mem_cons_self).described.1, tip,
      (serves.commits respects serves.atTop).height]
  -- Induction on the distance from the tip, one canonical link at a time.
  obtain ⟨distance, apart⟩ : ∃ distance, g.tip.height.value = height.value + distance :=
    ⟨g.tip.height.value - height.value, by have := le_def.mp (works.represents.below_tip listed); omega⟩
  induction distance generalizing height hash with
  | zero =>
    have same : height = g.tip.height := ext (by omega)
    rw [same, works.represents.tip_listed] at listed
    cases listed
    refine ⟨top, ?_, tip.symm⟩
    rw [same, tipHeight]
    exact serves.atTop
  | succ distance ih =>
    have fits : height.value + 1 ≤ maxHeight := by
      have := g.tip.height.bounded
      omega
    obtain ⟨hash', listed'⟩ := works.represents.gapless listed
      (show height ≤ ⟨height.value + 1, fits⟩ from Nat.le_succ _)
      (le_def.mpr (by change height.value + 1 ≤ _; omega))
    obtain ⟨newer, at_, newerHash⟩ := ih listed' (by change _ = height.value + 1 + _; omega)
    obtain ⟨older, atOlder⟩ := serves.exists_at
      (Nat.le_of_succ_le (serves.le_top at_))
    obtain ⟨block, retained, _⟩ := works.represents.listed listed'
    obtain ⟨accumulates, blockHash⟩ := works.accumulates retained
    have linked := works.represents.linked rfl listed listed' retained
    refine ⟨older, atOlder, ?_⟩
    rw [← linked, accumulates.described.2, blockHash, ← newerHash,
      ← (serves.commits respects at_).parent, serves.linked atOlder at_]

/-- The walks of a tick stay within their limit: the walk down from the first served block above the
window's tip, or the search for the validator's tip below it and the walk down from there. -/
structure WithinWalks (maxDepth tip top fork : Nat) : Prop where
  above : tip < top → tip ≤ fork + maxDepth
  below : top ≤ tip → tip ≤ top + maxDepth ∧ top ≤ fork + maxDepth + 1

/-- When a tick converges: it takes a fresh anchor, or the validator's chain shares a block with the
window's canonical chain that its walks reach, and nothing retained is heavier than its top. In either
case the works fit. -/
inductive Converges (maxDepth : Nat) (g : MapBackedSnapshot) (chain : List Block) (top : Block) : Prop
  | reanchors : g.tip.height.value + maxDepth < top.header.height.value →
      (∀ anchor, chain[top.header.height.value - maxDepth]? = some anchor →
        anchor.header.bits.toWork.value + branchWork chain (top.header.height.value - maxDepth)
          top.header.height.value < 2 ^ 128) →
      Converges maxDepth g chain top
  | meets {fork : ChainHeadBlock} {block : Block} :
      top.header.height.value ≤ g.tip.height.value + maxDepth →
      g.bestBlockByHeight fork.height = some fork → chain[fork.height.value]? = some block →
      block.header.hash = fork.hash →
      WithinWalks maxDepth g.tip.height.value top.header.height.value fork.height.value →
      (∀ retained ∈ g.blocks, retained.work.value ≤
        fork.work.value + branchWork chain fork.height.value top.header.height.value) →
      fork.work.value + branchWork chain fork.height.value top.header.height.value < 2 ^ 128 →
      Converges maxDepth g chain top

/-- The window's tip is the validator's, and every canonical block is the validator's block there. -/
structure Converged (chain : List Block) (top : Block) (g : MapBackedSnapshot) : Prop where
  tip : g.bestTip = ⟨top.header.hash, top.header.height⟩
  canonical : ∀ height block, g.bestBlockByHeight height = some block →
    ∃ served, chain[height.value]? = some served ∧
      block.reference = ⟨served.header.hash, served.header.height⟩

theorem WorksFrom.converged : Converged chain top g := by
  have referenced : ∀ {retained : ChainHeadBlock} {i : Nat} {served : Block},
      retained ∈ g.blocks → chain[i]? = some served → retained.hash = served.header.hash →
      retained.reference = ⟨served.header.hash, served.header.height⟩ := by
    intro retained i served member at_ hash
    have height : retained.height = served.header.height := by
      rw [(works.works retained member).described.1, hash, (serves.commits respects at_).height]
    rw [← hash, ← height]
    rfl
  refine ⟨referenced mem_cons_self serves.atTop tip, fun height block canonical => ?_⟩
  obtain ⟨hash, listed, retained⟩ := bind_eq_some_iff.mp canonical
  obtain ⟨served, at_, same⟩ := works.canonical_on_chain respects serves tip listed
  refine ⟨served, at_, referenced (mem_blocks_of_blockByHash retained) at_ ?_⟩
  rw [same]
  exact works.represents.keyed retained

omit works respects serves tip

/-- Under the conditions of convergence the next graph is built, and its tip is the validator's. -/
theorem TickEnv.nextGraph_converges {env : TickEnv} (works : WorksFrom identity anchor g)
    (respects : env.validator.Respects identity) (serves : env.validator.ServesChain chain top)
    (enough : top.header.height.value < env.fuel)
    (converges : Converges env.config.maxDepth g chain top) :
    (env.nextGraph g top.header.height).Total fun next =>
      (∃ anchor', WorksFrom identity anchor' next) ∧ next.tip.hash = top.header.hash := by
  have done : ∀ {anchor' : BlockHash} {limit : Nat} {next : MapBackedSnapshot},
      Climb.Reached identity anchor' chain limit top.header.height.value next →
      (∃ anchor', WorksFrom identity anchor' next) ∧ next.tip.hash = top.header.hash := by
    intro anchor' limit next reached
    obtain ⟨block, at_, hash⟩ := reached.tip
    rw [serves.atTop] at at_
    cases at_
    exact ⟨⟨anchor', reached.window.works⟩, hash⟩
  cases converges with
  | reanchors far fits =>
    obtain ⟨block, at_⟩ := serves.exists_at (Nat.sub_le top.header.height.value env.config.maxDepth)
    have commits := serves.commits respects at_
    have climb : Climb env identity block.header.hash chain top
        (top.header.height.value - env.config.maxDepth) block.header.bits.toWork.value := by
      refine ⟨respects, serves, ⟨block, [block.header.hash], at_, .anchor, ?_⟩, fits block at_⟩
      rw [HeaderIdentity.pathWork, map_singleton, sum_singleton, commits.work]
    have height : (anchorOf block).height.value = top.header.height.value - env.config.maxDepth :=
      serves.heights at_
    have fresh := WorksFrom.fromInitialBlock commits
    have reached : Climb.Reached identity block.header.hash chain
        (Climb.bound chain top (top.header.height.value - env.config.maxDepth)
          block.header.bits.toWork.value)
        (top.header.height.value - env.config.maxDepth) (.fromInitialBlock (anchorOf block)) := by
      refine ⟨⟨fresh, retains_fromInitialBlock ?_⟩, block, at_, rfl⟩
      exact Nat.le_add_right _ _
    have positive := env.config.positive
    have start : (env.startingGraph g top.header.height).Total
        (· = fromInitialBlock (anchorOf block)) := by
      have behind : g.bestTip.height < heightBelow top.header.height env.config.maxDepth := by
        change g.tip.height.value < top.header.height.value - env.config.maxDepth
        omega
      rw [startingGraph, if_pos behind]
      have resolves : (env.resolveAnchorBlock (heightBelow top.header.height env.config.maxDepth)).Total
          (· = anchorOf block) := by
        refine (climb.blockAtHeight_total _).bind ?_
        rintro _ rfl
        have found : chain[(heightBelow top.header.height env.config.maxDepth).value]? = some block :=
          at_
        rw [found]
        exact (climb.treeRoots_total (mem_of_getElem? at_)).bind fun _ _ s =>
          ⟨anchorOf block, s, rfl, rfl⟩
      refine resolves.bind ?_
      rintro _ rfl
      exact (total_modify _).bind fun _ _ => total_pure rfl
    have extends_ := climb.extendTo_total
      (by omega : top.header.height.value < (anchorOf block).height.value + env.fuel)
      (Or.inl ⟨Nat.le_of_eq height.symm, by rw [show (fromInitialBlock (anchorOf block)).tip.height.value = _ from height]; exact reached⟩)
      (Or.inl (show (anchorOf block).height.value < top.header.height.value by omega))
    exact (climb.nextGraph_total (Nat.sub_le _ _) start
      (extends_.mono fun g' reached' => climb.check_reached reached')).mono fun next => done
  | @meets fork block near canonical at_ hash within light fits =>
    obtain ⟨listedHash, listed, retained⟩ := bind_eq_some_iff.mp canonical
    obtain ⟨accumulates, forkHash⟩ := works.accumulates retained
    have blockHeight : block.header.height = fork.height := by
      rw [(serves.commits respects at_).height, hash, ← accumulates.described.1]
    have holds : Climb.Holds g chain fork.height.value := by
      refine ⟨block, at_, ?_⟩
      rw [blockHeight, hash, forkHash]
      exact listed
    have climb : Climb env identity anchor chain top fork.height.value fork.work.value := by
      obtain ⟨path, ancestors, sum⟩ := accumulates.path
      exact ⟨respects, serves, ⟨block, path, at_, hash ▸ ancestors, sum.symm⟩, fits⟩
    have window : Window identity anchor
        (Climb.bound chain top fork.height.value fork.work.value) g := ⟨works, light⟩
    have forkBelow : fork.height.value ≤ g.tip.height.value := works.represents.below_tip listed
    have start : (env.startingGraph g top.header.height).Total (· = g) := by
      have ahead : ¬ g.bestTip.height < heightBelow top.header.height env.config.maxDepth := by
        change ¬ g.tip.height.value < top.header.height.value - env.config.maxDepth
        omega
      rw [startingGraph, if_neg ahead]
      exact total_pure rfl
    refine (climb.nextGraph_total (serves.le_top at_) start ?_).mono fun next => done
    by_cases higher : g.tip.height.value < top.header.height.value
    · have extends_ := climb.extendTo_total
        (by omega : top.header.height.value < g.tip.height.value + env.fuel)
        (Or.inr ⟨window, holds, forkBelow, within.above higher⟩) (Or.inl higher)
      exact extends_.mono fun g' reached => climb.check_reached reached
    · have unextended : (env.extendTo top.header.height env.fuel g).Total (· = g) := by
        obtain ⟨fuel, fuel_eq⟩ : ∃ fuel, env.fuel = fuel + 1 := ⟨env.fuel - 1, by omega⟩
        rw [fuel_eq, extendTo, if_neg (show ¬ g.bestTip.height < top.header.height from higher)]
        exact total_pure rfl
      refine unextended.mono fun g' same => ?_
      rw [same]
      obtain ⟨near', within'⟩ := within.below (Nat.le_of_not_lt higher)
      by_cases agrees : g.tip.hash = top.header.hash
      · exact climb.check_reached ⟨window, top, serves.atTop, agrees⟩
      · refine climb.check_total window holds ?_ within' near' agrees (Nat.le_of_not_lt higher)
        -- A window whose canonical chain holds the validator's tip either ends there or is heavier.
        refine Nat.lt_of_le_of_ne (serves.le_top at_) fun atTop => ?_
        have isTop : block = top := by
          rw [atTop, serves.atTop] at at_
          exact (some.inj at_).symm
        rcases Nat.lt_or_eq_of_le forkBelow with lower | level
        · have heavier := works.work_lt_of_height_lt canonical
            (bind_eq_some_iff.mpr
              ⟨_, works.represents.tip_listed, Representation.blockByHash_tip⟩) lower
          have bounded := light g.tip mem_cons_self
          rw [atTop, branchWork_self] at bounded
          omega
        · have sameHeight : fork.height = g.tip.height := ext level
          rw [sameHeight, works.represents.tip_listed] at listed
          cases listed
          exact agrees (by rw [← isTop, hash, forkHash])

/-- A tick over a validator whose answers describe one chain succeeds and brings the window onto that
chain, under the conditions of convergence. -/
theorem tick_converges {identity : HeaderIdentity} {service : ChainHeadService} {env : TickEnv}
    {chain : List Block} {top : Block} (reachable : ChainHeadService.ReachableUnder identity service)
    (respects : env.validator.Respects identity) (serves : env.validator.ServesChain chain top)
    (enough : top.header.height.value < env.fuel)
    (converges : Converges env.config.maxDepth service.current chain top) :
    (service.tick env).outcome = .ok () ∧ Converged chain top (service.tick env).service.current := by
  obtain ⟨anchor, works⟩ := reachable.worksFrom
  have asked : env.chainTip.Total (· = ⟨top.header.hash, top.header.height⟩) := by
    refine total_request.bind fun requests _ => ?_
    rw [serves.tip]
    exact total_pure rfl
  by_cases held : (⟨top.header.hash, top.header.height⟩ : BlockRef) = service.current.bestTip
  · have advanced : (env.advance service.current).Total (· = none) := by
      refine asked.bind ?_
      rintro _ rfl
      rw [if_pos held]
      exact total_pure rfl
    obtain ⟨_, s, returned, rfl⟩ := advanced ⟨0, service.seam, []⟩
    have run : (env.advance service.current).run ⟨0, service.seam, []⟩ = (.ok none, s) := returned
    unfold ChainHeadService.tick
    rw [run]
    exact ⟨rfl, works.converged respects serves (congrArg BlockRef.hash held).symm⟩
  · have advanced : (env.advance service.current).Total fun outcome => ∃ next, outcome = some next ∧
        (∃ anchor', WorksFrom identity anchor' next) ∧ next.tip.hash = top.header.hash := by
      refine asked.bind ?_
      rintro _ rfl
      rw [if_neg held]
      refine (TickEnv.nextGraph_converges works respects serves enough converges).bind ?_
      exact fun next built => total_pure ⟨next, rfl, built⟩
    obtain ⟨_, s, returned, next, rfl, ⟨anchor', works'⟩, tip⟩ := advanced ⟨0, service.seam, []⟩
    have run : (env.advance service.current).run ⟨0, service.seam, []⟩ = (.ok (some next), s) :=
      returned
    unfold ChainHeadService.tick
    rw [run]
    exact ⟨rfl, (works'.stampGeneration _ _).converged respects serves tip⟩

/-- A sample validator serves its chain, if that is one. -/
theorem sampleValidator_servesChain (ends : chain.getLast? = some top)
    (heights : chain.map (fun block => block.header.height.value) = List.range chain.length)
    (linked : chain.IsChain fun older newer => newer.header.prevHash = older.header.hash)
    (distinct : (chain.map fun block => block.header.hash).Nodup) :
    (sampleValidator chain).ServesChain chain top := by
  have heightAt : ∀ {i : Nat} {block : Block}, chain[i]? = some block →
      block.header.height.value = i := by
    intro i block at_
    obtain ⟨below, _⟩ := List.getElem?_eq_some_iff.mp at_
    have mapped : (chain.map fun block => block.header.height.value)[i]? =
        some block.header.height.value := by
      rw [getElem?_map, at_]
      rfl
    rw [heights, getElem?_range below] at mapped
    exact (some.inj mapped).symm
  refine ⟨ends, heightAt, fun {i older newer} atOlder atNewer => ?_, fun _ => ?_, fun _ height => ?_,
    fun _ block member => ?_, fun _ _ _ => rfl⟩
  · obtain ⟨below, isNewer⟩ := List.getElem?_eq_some_iff.mp atNewer
    obtain ⟨_, isOlder⟩ := List.getElem?_eq_some_iff.mp atOlder
    rw [← isNewer, ← isOlder]
    exact isChain_iff_getElem.mp linked i below
  · change chain.getLast?.map _ = _
    rw [ends]
    rfl
  · have found : (chain.find? fun block => block.header.height = height) = chain[height.value]? := by
      cases answer : chain.find? fun block => block.header.height = height with
      | none =>
        refine (eq_none_iff_forall_not_mem.mpr fun block at_ => ?_).symm
        have other := find?_eq_none.mp answer block (mem_of_getElem? at_)
        exact other (decide_eq_true (ext (heightAt at_)))
      | some block =>
        obtain ⟨i, at_⟩ := getElem?_of_mem (mem_of_find?_eq_some answer)
        have held := find?_some answer
        have same : block.header.height = height := of_decide_eq_true held
        rw [← same, heightAt at_, at_]
    change Answer.ofOption _ = _
    rw [found]
    cases chain[height.value]? <;> rfl
  · have found : (chain.find? fun other => other.header.hash = block.header.hash) = some block := by
      cases answer : chain.find? fun other => other.header.hash = block.header.hash with
      | none =>
        exact absurd (decide_eq_true rfl) (find?_eq_none.mp answer block member)
      | some other =>
        have held := find?_some answer
        have same : other.header.hash = block.header.hash := of_decide_eq_true held
        rw [inj_on_of_nodup_map distinct (mem_of_find?_eq_some answer) member same]
    exact congrArg Answer.ofOption found

/-- The window over the first sample chain moves to the longer one, which it meets at genesis. -/
theorem tick_converges_forked :
    let result := sampleFollowed.tick (sampleTick 3 (by decide) sampleFork)
    result.outcome = .ok () ∧ Converged sampleFork (sampleServed 33 32 3 1) result.service.current := by
  refine tick_converges sampleFollowed_reachable (sampleValidator_respects sampleFork_commits)
    (sampleValidator_servesChain rfl rfl (by decide) (by decide)) (by decide) ?_
  have canonical : sampleFollowed.current.bestBlockByHeight ⟨0, by decide⟩ =
      some (anchorOf sampleGenesis) := by
    decide +kernel
  have tip : sampleFollowed.current.tip.height.value = 2 := by decide +kernel
  refine @Converges.meets _ _ _ _ (anchorOf sampleGenesis) sampleGenesis ?_ canonical rfl rfl
    ⟨fun _ => ?_, fun lower => ?_⟩ (by decide +kernel) (by decide)
  · decide
  · rw [tip]
    decide
  · exact absurd lower (by decide)

/-- Block 21 with two blocks above it. -/
def sampleRevived : List Block :=
  [sampleGenesis, sampleServed 21 20 1 1, sampleServed 22 21 2 1, sampleServed 23 22 3 1]

theorem sampleRevived_commits : ∀ block ∈ sampleRevived, sampleIdentity.Commits block := by
  intro block member
  simp only [sampleRevived, mem_cons, not_mem_nil, or_false] at member
  rcases member with rfl | rfl | rfl | rfl <;> exact ⟨by decide, by decide, by decide⟩

/-- A service with a walk limit of one block, after it has followed block 21, then 31 in its place, and
then 32. -/
def sampleSwitched : ChainHeadService :=
  let follow (service : ChainHeadService) (chain : List Block) : ChainHeadService :=
    (service.tick (sampleTick 1 Nat.one_pos chain)).service
  follow (follow (follow (sampleService (anchorOf sampleGenesis) 1) (sampleRevived.take 2))
    (sampleFork.take 2)) (sampleFork.take 3)

/-- The chain of block 23 meets the retained graph at block 21, two blocks below the first served one,
and is heavier than anything retained. Block 21 is not canonical, so the walk would have to go on to
genesis, and gives up at its limit. -/
theorem tick_fails_at_side_branch : let tick := sampleTick 1 (by decide) sampleRevived
    ChainHeadService.ReachableUnder sampleIdentity sampleSwitched ∧
      tick.validator.Respects sampleIdentity ∧
      tick.validator.ServesChain sampleRevived (sampleServed 23 22 3 1) ∧
      (∃ retained ∈ sampleSwitched.current.blocks, retained.hash = 21 ∧
        WithinWalks 1 sampleSwitched.current.tip.height.value 3 retained.height.value) ∧
      AncestorPath sampleIdentity 20 23 [20, 21, 22, 23] ∧
      (∀ retained ∈ sampleSwitched.current.blocks,
        retained.work.value ≤ sampleIdentity.pathWork [20, 21, 22, 23]) ∧
      (sampleSwitched.tick tick).outcome = .error .reorgFailure := by
  intro tick
  have follows : ∀ {service : ChainHeadService} {chain : List Block},
      ChainHeadService.ReachableUnder sampleIdentity service →
      (∀ block ∈ chain, sampleIdentity.Commits block) →
      ChainHeadService.ReachableUnder sampleIdentity
        (service.tick (sampleTick 1 (by decide) chain)).service :=
    fun reachable commits => .tick _ reachable (sampleValidator_respects commits)
  have reachable : ChainHeadService.ReachableUnder sampleIdentity sampleSwitched := by
    refine follows (follows (follows (.anchored sampleGenesis ?_ rfl) ?_) ?_) ?_
    · exact sampleChain_commits _ mem_cons_self
    · exact fun block member => sampleRevived_commits block (mem_of_mem_take member)
    · exact fun block member => sampleFork_commits block (mem_of_mem_take member)
    · exact fun block member => sampleFork_commits block (mem_of_mem_take member)
  have met : ∃ retained ∈ sampleSwitched.current.blocks, retained.hash = 21 ∧
      retained.height.value = 1 := by
    decide +kernel
  have tip : sampleSwitched.current.tip.height.value = 2 := by decide +kernel
  have first : AncestorPath sampleIdentity 20 21 [20, 21] :=
    @AncestorPath.child sampleIdentity 20 21 [20] .anchor (by decide)
  have second : AncestorPath sampleIdentity 20 22 [20, 21, 22] :=
    @AncestorPath.child sampleIdentity 20 22 [20, 21] first (by decide)
  have third : AncestorPath sampleIdentity 20 23 [20, 21, 22, 23] :=
    @AncestorPath.child sampleIdentity 20 23 [20, 21, 22] second (by decide)
  refine ⟨reachable, sampleValidator_respects sampleRevived_commits,
    sampleValidator_servesChain rfl rfl (by decide) (by decide), ?_, third, by decide +kernel,
    by decide +kernel⟩
  obtain ⟨retained, member, hash, height⟩ := met
  refine ⟨retained, member, hash, ⟨fun _ => ?_, fun lower => ?_⟩⟩
  · omega
  · omega

end Zaino.ChainHead
