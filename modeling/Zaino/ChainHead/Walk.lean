import Mathlib.Data.List.Chain
import Zaino.ChainHead.Representation
import Zaino.ChainHead.Service

/-!
# Reorg walks

What a successful `handleReorg` does to a graph, for any validator. `Joins` says, of the graph and
the validator's answers before the walk, where a branch meets the canonical chain; a successful
walk rewinds to that block and lays the branch down above it (`handleReorg_returns`). Nothing at
or below the fork point changes, and everything above it is the branch.

The only invariant needed is that retained blocks are found under their own hash (`Keyed`), which
every move keeps whatever the blocks are.
-/

namespace Zaino.ChainHead

open Zaino Library Finality List Fallible MapBackedSnapshot Height

/-! ## Retained blocks are found under their own hash -/

/-- Retained blocks are found under their own hash. -/
def MapBackedSnapshot.Keyed (g : MapBackedSnapshot) : Prop :=
  ∀ hash block, g.others.lookup hash = some block → block.hash = hash

namespace MapBackedSnapshot

variable {g : MapBackedSnapshot}

theorem keyed_fromInitialBlock (block : ChainHeadBlock) : (fromInitialBlock block).Keyed := by
  intro hash found lookup
  cases lookup

variable {block : ChainHeadBlock} {next : MapBackedSnapshot} (keyed : g.Keyed)

include keyed

theorem Keyed.blockByHash {hash : BlockHash}
    (retained : g.blockByHash hash = some block) : block.hash = hash := by
  unfold MapBackedSnapshot.blockByHash at retained
  split at retained
  · next atTip =>
    cases retained
    exact atTip
  · exact keyed _ _ retained

theorem Keyed.bestBlockByHeight {height : Height}
    (canonical : g.bestBlockByHeight height = some block) :
    g.heightsToHashes.lookup height = some block.hash := by
  obtain ⟨hash, listed, retained⟩ := Option.bind_eq_some_iff.mp canonical
  rw [keyed.blockByHash retained]
  exact listed

theorem Keyed.replaceTip (block : ChainHeadBlock) : (g.replaceTip block).Keyed := by
  intro hash found lookup
  rw [replaceTip_others_lookup] at lookup
  split at lookup
  · cases lookup
  · split at lookup
    · next atTip =>
      cases lookup
      exact atTip.symm
    · exact keyed _ _ lookup

theorem Keyed.extend (extended : g.extend block = (.ok (), next)) : next.Keyed := by
  obtain ⟨_, _, rfl⟩ := extend_eq_ok extended
  have kept : { g with
      heightsToHashes := g.heightsToHashes.insert block.height block.hash }.Keyed := keyed
  exact kept.replaceTip block

theorem Keyed.rewindTo {block : BlockRef}
    (rewound : g.rewindTo block = (.ok (), next)) : next.Keyed := by
  rcases rewindTo_eq_ok rewound with ⟨_, rfl⟩ | ⟨newTip, _, _, _, rfl⟩
  · exact keyed
  · have kept : { g with
        heightsToHashes := g.heightsToHashes.retain fun height _ => height ≤ block.height
        }.Keyed := keyed
    exact kept.replaceTip newTip

theorem Keyed.removeFinalisedBlocks (floor : Height) : (g.removeFinalisedBlocks floor).Keyed := by
  intro hash found lookup
  exact keyed _ _ (HashMap.lookup_retain_eq_some.mp lookup).1

omit keyed

theorem mem_blocks :
    block ∈ g.blocks ↔ block = g.tip ∨ ∃ hash, g.others.lookup hash = some block := by
  rw [blocks, mem_cons, HashMap.mem_values]

theorem mem_blocks_of_blockByHash {hash : BlockHash} (retained : g.blockByHash hash = some block) :
    block ∈ g.blocks := by
  unfold blockByHash at retained
  split at retained
  · cases retained
    exact mem_cons_self
  · exact mem_blocks.mpr (Or.inr ⟨hash, retained⟩)

end MapBackedSnapshot

/-! ## Requests -/

theorem returns_request {s s' : TickState} {n : Nat} :
    request.Returns s n s' ↔ n = s.requests ∧ s' = { s with requests := s.requests + 1 } := by
  simp only [request, returns_bind, returns_get, returns_modify,
    returns_pure]
  constructor
  · rintro ⟨_, _, ⟨rfl, rfl⟩, _, _, rfl, rfl, rfl⟩
    exact ⟨rfl, rfl⟩
  · rintro ⟨rfl, rfl⟩
    exact ⟨s, s, ⟨rfl, rfl⟩, (), _, rfl, rfl, rfl⟩

/-- The step only made requests. -/
def TickState.OnlyRequests (s s' : TickState) : Prop := s'.seam = s.seam ∧ s'.log = s.log

theorem TickState.OnlyRequests.trans {s s' s'' : TickState} (first : s.OnlyRequests s')
    (second : s'.OnlyRequests s'') : s.OnlyRequests s'' :=
  ⟨second.1.trans first.1, second.2.trans first.2⟩

/-- A block that the validator has served. -/
inductive Validator.Serves (validator : Validator) (block : Block) : Prop
  | atHeight {requests : Nat} {height : Height} :
      validator.getBlock requests height = .found block → Serves validator block
  | byHash {requests : Nat} {hash : BlockHash} :
      validator.getBlockByHash requests hash = .found block → Serves validator block

/-- A served block as retained with the work accumulated to it. -/
def retainedAs (block : Block) (work : ChainHeadWork) : ChainHeadBlock :=
  ⟨⟨block.header.hash, block.header.height⟩, block.header.prevHash, work, block⟩

/-- A served block as the window's anchor. -/
def anchorOf (block : Block) : ChainHeadBlock :=
  retainedAs block (.anchoredAt block.header.bits.toWork)

namespace TickEnv

variable {env : TickEnv} {s s' : TickState}

variable {block : Option Block} {hash : BlockHash} {built : ChainHeadBlock}

theorem presentOrAbsent_returns {answer : Answer Block}
    (returned : (presentOrAbsent answer).Returns s block s') :
    s' = s ∧ ∀ found, block = some found → answer = .found found := by
  cases answer with
  | found served =>
    obtain ⟨rfl, rfl⟩ := returns_pure.mp returned
    refine ⟨rfl, fun found same => ?_⟩
    cases same
    rfl
  | absent =>
    obtain ⟨rfl, rfl⟩ := returns_pure.mp returned
    exact ⟨rfl, fun found same => by cases same⟩
  | failed => exact (returns_fail.mp returned).elim

theorem blockAtHeight_returns {height : Height}
    (returned : (env.blockAtHeight height).Returns s block s') : s.OnlyRequests s' ∧
      ∀ found, block = some found → env.validator.getBlock s.requests height = .found found := by
  obtain ⟨n, mid, asked, answered⟩ := returns_bind.mp returned
  obtain ⟨rfl, rfl⟩ := returns_request.mp asked
  obtain ⟨rfl, served⟩ := presentOrAbsent_returns answered
  exact ⟨⟨rfl, rfl⟩, served⟩

theorem blockAtHash_returns (returned : (env.blockAtHash hash).Returns s block s') :
    s.OnlyRequests s' ∧ s'.requests = s.requests + 1 ∧
      ∀ found, block = some found → env.validator.getBlockByHash s.requests hash = .found found := by
  obtain ⟨n, mid, asked, answered⟩ := returns_bind.mp returned
  obtain ⟨rfl, rfl⟩ := returns_request.mp asked
  obtain ⟨rfl, served⟩ := presentOrAbsent_returns answered
  exact ⟨⟨rfl, rfl⟩, rfl, served⟩

theorem treeRoots_returns {u : Unit} (returned : (env.treeRoots hash).Returns s u s') :
    s.OnlyRequests s' := by
  obtain ⟨n, mid, asked, answered⟩ := returns_bind.mp returned
  obtain ⟨rfl, rfl⟩ := returns_request.mp asked
  split at answered
  · obtain ⟨_, rfl⟩ := returns_pure.mp answered
    exact ⟨rfl, rfl⟩
  · exact (returns_fail.mp answered).elim

theorem chainHeadBlock_returns {block : Block} {parentWork : Option ChainHeadWork}
    (returned : (chainHeadBlock block parentWork).Returns s built s') :
    s' = s ∧ ∃ work, accumulatedWork block.header.bits.toWork parentWork = .ok work ∧
      built = retainedAs block work := by
  obtain ⟨work, mid, accumulated, built'⟩ := returns_bind.mp returned
  obtain ⟨summed, rfl⟩ := returns_ofExcept.mp accumulated
  obtain ⟨rfl, rfl⟩ := returns_pure.mp built'
  exact ⟨rfl, work, summed, rfl⟩

theorem blockToChainblock_returns {prevBlock : ChainHeadBlock} {block : Block}
    (returned : (env.blockToChainblock prevBlock block).Returns s built s') :
    s.OnlyRequests s' ∧ ∃ work, prevBlock.work.checkedAdd block.header.bits.toWork = some work ∧
      built = retainedAs block work := by
  obtain ⟨_, mid, roots, built'⟩ := returns_bind.mp returned
  obtain ⟨rfl, work, accumulated, same⟩ := chainHeadBlock_returns built'
  refine ⟨treeRoots_returns roots, work, ?_, same⟩
  unfold accumulatedWork at accumulated
  dsimp only at accumulated
  split at accumulated
  · next sum added =>
    cases accumulated
    exact added
  · cases accumulated

theorem accept_returns {ε : Type} {move : Except ε Unit × MapBackedSnapshot}
    {graph : MapBackedSnapshot} (returned : (accept move).Returns s graph s') :
    move = (.ok (), graph) ∧ s' = s := by
  obtain ⟨outcome, moved⟩ := move
  cases outcome with
  | ok =>
    obtain ⟨rfl, rfl⟩ := returns_pure.mp returned
    exact ⟨rfl, rfl⟩
  | error => exact (returns_fail.mp returned).elim

end TickEnv

/-! ## Where a branch meets the canonical chain -/

/-- Following parent links from `hash`, through retained blocks and through the validator's answers
from request `n` on, the first canonical block of the graph is the last argument. -/
inductive Joins (validator : Validator) (graph : MapBackedSnapshot) :
    Nat → BlockHash → ChainHeadBlock → Prop
  | canonical {n hash block} : graph.blockByHash hash = some block →
      graph.isOnBestChain block.reference = true → Joins validator graph n hash block
  | retained {n hash block fork} : graph.blockByHash hash = some block →
      graph.isOnBestChain block.reference = false → Joins validator graph n block.parentHash fork →
      Joins validator graph n hash fork
  | fetched {n hash block fork} : graph.blockByHash hash = none →
      validator.getBlockByHash n hash = .found block →
      Joins validator graph (n + 1) block.header.prevHash fork → Joins validator graph n hash fork

variable {validator : Validator} {graph : MapBackedSnapshot} {n : Nat} {hash : BlockHash}
  {fork : ChainHeadBlock} {env : TickEnv} {s s' : TickState}

theorem Joins.unique {fork' : ChainHeadBlock} (first : Joins validator graph n hash fork)
    (second : Joins validator graph n hash fork') : fork = fork' := by
  induction first with
  | canonical found onChain =>
    cases second with
    | canonical found' => exact Option.some.inj (found.symm.trans found')
    | retained found' offChain => simp_all
    | fetched absent => simp_all
  | retained found offChain _ ih =>
    cases second with
    | canonical found' onChain => simp_all
    | retained found' _ rest =>
      rw [found] at found'
      cases found'
      exact ih rest
    | fetched absent => simp_all
  | fetched absent served _ ih =>
    cases second with
    | canonical found' => simp_all
    | retained found' => simp_all
    | fetched _ served' rest =>
      rw [served] at served'
      cases served'
      exact ih rest

theorem Joins.fork_canonical (joins : Joins validator graph n hash fork) :
    (∃ at_, graph.blockByHash at_ = some fork) ∧ graph.isOnBestChain fork.reference = true := by
  induction joins with
  | canonical found onChain => exact ⟨⟨_, found⟩, onChain⟩
  | retained _ _ _ ih => exact ih
  | fetched _ _ _ ih => exact ih

/-- A branch hanging from `hash`, newest block first, none of it on the graph's best chain. -/
def OffChain (graph : MapBackedSnapshot) : BlockHash → List BranchBlock → Prop
  | _, [] => True
  | hash, .retained block :: rest =>
    graph.blockByHash hash = some block ∧ graph.isOnBestChain block.reference = false ∧
      OffChain graph block.parentHash rest
  | hash, .fetched block :: rest =>
    graph.blockByHash hash = none ∧ OffChain graph block.header.prevHash rest

/-- A branch block that was retained or served. -/
def BranchBlock.Admitted (validator : Validator) (Admits : ChainHeadBlock → Prop) :
    BranchBlock → Prop
  | .retained block => Admits block
  | .fetched block => validator.Serves block

variable {block : BranchBlock}

theorem BranchBlock.Admitted.mono {Admits Admits' : ChainHeadBlock → Prop}
    (admitted : block.Admitted validator Admits) (wider : ∀ block, Admits block → Admits' block) :
    block.Admitted validator Admits' := by
  cases block with
  | retained stored => exact wider stored admitted
  | fetched served => exact admitted

theorem TickEnv.descend_returns {budget : Nat} {parentHash : BlockHash} {branch : List BranchBlock}
    (returned : (env.descend graph budget parentHash).Returns s (fork, branch) s') :
    s.OnlyRequests s' ∧ Joins env.validator graph s.requests parentHash fork ∧
      OffChain graph parentHash branch ∧
      ∀ pending ∈ branch, pending.Admitted env.validator (· ∈ graph.blocks) := by
  induction budget generalizing s parentHash branch with
  | zero => exact (returns_fail.mp returned).elim
  | succ budget ih =>
    unfold descend at returned
    split at returned
    · next prev found =>
      split at returned
      · next onChain =>
        obtain ⟨same, rfl⟩ := returns_pure.mp returned
        cases same
        exact ⟨⟨rfl, rfl⟩, .canonical found onChain, trivial, fun _ absurd => nomatch absurd⟩
      · next offChain =>
        obtain ⟨⟨fork', rest⟩, mid, descended, same⟩ := returns_bind.mp returned
        obtain ⟨same, rfl⟩ := returns_pure.mp same
        cases same
        obtain ⟨requests, joins, branchOff, admitted⟩ := ih descended
        exact ⟨requests, .retained found (Bool.eq_false_iff.mpr offChain) joins,
          ⟨found, Bool.eq_false_iff.mpr offChain, branchOff⟩,
          forall_mem_cons.mpr ⟨mem_blocks_of_blockByHash found, admitted⟩⟩
    · next absent =>
      obtain ⟨answer, mid, asked, continued⟩ := returns_bind.mp returned
      obtain ⟨requests, count, served⟩ := blockAtHash_returns asked
      split at continued
      · exact (returns_fail.mp continued).elim
      · next fetched =>
        obtain ⟨⟨fork', rest⟩, mid', descended, same⟩ := returns_bind.mp continued
        obtain ⟨same, rfl⟩ := returns_pure.mp same
        cases same
        obtain ⟨requests', joins, branchOff, admitted⟩ := ih descended
        rw [count] at joins
        exact ⟨requests.trans requests', .fetched absent (served _ rfl) joins, ⟨absent, branchOff⟩,
          forall_mem_cons.mpr ⟨.byHash (served _ rfl), admitted⟩⟩

/-! ## Laying a branch down -/

/-- The graph after extending by each block in turn, oldest first. -/
inductive Lay : MapBackedSnapshot → List ChainHeadBlock → MapBackedSnapshot → Prop
  | nil {g} : Lay g [] g
  | cons {g next g' block rest} : g.extend block = (.ok (), next) → Lay next rest g' →
      Lay g (block :: rest) g'

/-- The retained block that a branch block becomes. -/
def BranchBlock.Becomes : BranchBlock → ChainHeadBlock → Prop
  | .retained block, laid => laid = block
  | .fetched block, laid =>
    laid.reference = ⟨block.header.hash, block.header.height⟩ ∧
      laid.parentHash = block.header.prevHash

theorem BranchBlock.Becomes.parentHash {pending : BranchBlock} {laid : ChainHeadBlock}
    (becomes : pending.Becomes laid) : laid.parentHash = pending.parentHash := by
  cases pending with
  | retained block =>
    obtain rfl := becomes
    rfl
  | fetched block => exact becomes.2

theorem TickEnv.layDown_returns {pending : List BranchBlock} {graph' : MapBackedSnapshot}
    {prevBlock last : ChainHeadBlock}
    (returned : (env.layDown graph prevBlock pending).Returns s (graph', last) s') :
    s.OnlyRequests s' ∧ ∃ laid, List.Forall₂ BranchBlock.Becomes pending laid ∧
      Lay graph laid graph' := by
  induction pending generalizing graph prevBlock s with
  | nil =>
    obtain ⟨same, rfl⟩ := returns_pure.mp returned
    cases same
    exact ⟨⟨rfl, rfl⟩, [], .nil, .nil⟩
  | cons first rest ih =>
    obtain ⟨block, mid, built, continued⟩ := returns_bind.mp returned
    obtain ⟨next, mid', accepted, remaining⟩ := returns_bind.mp continued
    obtain ⟨extended, rfl⟩ := accept_returns accepted
    obtain ⟨requests', laid, become, lay⟩ := ih remaining
    have ⟨requests, becomes⟩ : s.OnlyRequests mid' ∧ first.Becomes block := by
      cases first with
      | retained stored =>
        obtain ⟨rfl, rfl⟩ := returns_pure.mp built
        exact ⟨⟨rfl, rfl⟩, rfl⟩
      | fetched served =>
        obtain ⟨requests, _, _, rfl⟩ := blockToChainblock_returns built
        exact ⟨requests, rfl, rfl⟩
    exact ⟨requests.trans requests', block :: laid, .cons becomes become, .cons extended lay⟩

namespace Lay

variable {g g' : MapBackedSnapshot} {laid : List ChainHeadBlock}

variable (lay : Lay g laid g')

include lay

theorem keyed (keyed : g.Keyed) : g'.Keyed := by
  induction lay with
  | nil => exact keyed
  | cons extended _ ih => exact ih (keyed.extend extended)

theorem tip_height : g'.tip.height.value = g.tip.height.value + laid.length := by
  induction lay with
  | nil => rfl
  | cons extended _ ih =>
    obtain ⟨_, above, rfl⟩ := extend_eq_ok extended
    rw [ih, replaceTip_tip, above, length_cons]
    omega

theorem tip_eq_getLast {last : ChainHeadBlock} {older : List ChainHeadBlock}
    (split : laid = older ++ [last]) : g'.tip = last := by
  induction lay generalizing older with
  | nil => simp at split
  | cons extended rest ih =>
    cases older with
    | nil =>
      obtain ⟨rfl, rfl⟩ : _ = last ∧ _ = [] := by simpa using split
      cases rest
      obtain ⟨_, _, rfl⟩ := extend_eq_ok extended
      rfl
    | cons _ older => exact ih (List.cons.inj split).2

/-- Nothing at or below the old tip's height changes. -/
theorem heightsToHashes_of_le {height : Height} (le : height ≤ g.tip.height) :
    g'.heightsToHashes.lookup height = g.heightsToHashes.lookup height := by
  induction lay with
  | nil => rfl
  | cons extended _ ih =>
    obtain ⟨_, above, rfl⟩ := extend_eq_ok extended
    have le' := le_def.mp le
    rw [ih (le_def.mpr (by rw [replaceTip_tip]; omega))]
    refine AList.lookup_insert_ne fun same => ?_
    rw [same] at le'
    omega

theorem tip_listed (nonempty : laid ≠ []) :
    g'.heightsToHashes.lookup g'.tip.height = some g'.tip.hash := by
  induction lay with
  | nil => exact absurd rfl nonempty
  | cons extended rest ih =>
    cases rest with
    | nil =>
      obtain ⟨_, _, rfl⟩ := extend_eq_ok extended
      exact AList.lookup_insert _
    | cons extended' rest => exact ih (by simp)

theorem blockByHash_isSome {hash : BlockHash} (retained : (g.blockByHash hash).isSome) :
    (g'.blockByHash hash).isSome := by
  induction lay with
  | nil => exact retained
  | cons extended _ ih =>
    obtain ⟨_, _, rfl⟩ := extend_eq_ok extended
    apply ih
    rw [blockByHash_replaceTip]
    split
    · rfl
    · exact retained

/-- Every height above the old tip up to the new one is held by the laid block of that height. -/
theorem canonical_above {height : Height} (above : g.tip.height < height)
    (le : height ≤ g'.tip.height) : ∃ block ∈ laid, block.height = height ∧
      g'.heightsToHashes.lookup height = some block.hash ∧ (g'.blockByHash block.hash).isSome := by
  induction lay with
  | nil => exact absurd le (Nat.not_le_of_lt above)
  | @cons g next g' block rest extended lay ih =>
    obtain ⟨_, succ, rfl⟩ := extend_eq_ok extended
    by_cases top : height = block.height
    · subst top
      have kept : g'.heightsToHashes.lookup block.height = _ :=
        lay.heightsToHashes_of_le (Nat.le_refl block.height.value)
      exact ⟨block, mem_cons_self, rfl, kept.trans (AList.lookup_insert _),
        lay.blockByHash_isSome (by simp)⟩
    · have higher : block.height < height := by
        have ne : height.value ≠ block.height.value := fun same => top (ext same)
        have gt := lt_def.mp above
        exact lt_def.mpr (by omega)
      obtain ⟨found, member, rest⟩ := ih higher le
      exact ⟨found, mem_cons_of_mem _ member, rest⟩

theorem isChain : laid.IsChain fun older newer => newer.parentHash = older.hash := by
  induction lay with
  | nil => exact .nil
  | @cons g next g' block rest extended lay ih =>
    obtain ⟨_, _, rfl⟩ := extend_eq_ok extended
    cases lay with
    | nil => exact .singleton _
    | cons extended' _ => exact .cons_cons (extend_eq_ok extended').1 ih

end Lay

/-- A block that is not a retained canonical block of the graph. -/
def Foreign (graph : MapBackedSnapshot) (block : ChainHeadBlock) : Prop :=
  graph.isOnBestChain block.reference = false ∨ graph.blockByHash block.hash = none

/-- The blocks below the newest of a laid branch are foreign to the graph the walk started from. -/
theorem OffChain.foreign {graph : MapBackedSnapshot} {newest : BranchBlock}
    {branch : List BranchBlock} {last : ChainHeadBlock} {older : List ChainHeadBlock}
    (offChain : OffChain graph newest.parentHash branch) (becomes : newest.Becomes last)
    (become : List.Forall₂ BranchBlock.Becomes branch older)
    (chain : (last :: older).IsChain fun newer older => newer.parentHash = older.hash) :
    ∀ block ∈ older, Foreign graph block := by
  induction become generalizing newest last with
  | nil => simp
  | @cons pending laid branch older becomes' become ih =>
    obtain ⟨link, chain'⟩ := isChain_cons_cons.mp chain
    have laidHash : laid.hash = newest.parentHash := link.symm.trans becomes.parentHash
    intro block member
    cases pending with
    | retained stored =>
      obtain ⟨_, off, offChain'⟩ := offChain
      change OffChain graph (BranchBlock.retained stored).parentHash branch at offChain'
      rcases mem_cons.mp member with rfl | deeper
      · obtain rfl := becomes'
        exact Or.inl off
      · exact ih offChain' becomes' chain' block deeper
    | fetched served =>
      obtain ⟨absent, offChain'⟩ := offChain
      change OffChain graph (BranchBlock.fetched served).parentHash branch at offChain'
      rcases mem_cons.mp member with rfl | deeper
      · exact Or.inr (laidHash ▸ absent)
      · exact ih offChain' becomes' chain' block deeper

/-! ## A whole reorg -/

/-- Rewinding to a retained canonical block makes it the tip. -/
theorem MapBackedSnapshot.Keyed.rewindTo_fork {g next : MapBackedSnapshot} (keyed : g.Keyed)
    {fork : ChainHeadBlock} {hash : BlockHash} (retained : g.blockByHash hash = some fork)
    (rewound : g.rewindTo fork.reference = (.ok (), next)) :
    next.tip = fork ∧ ∀ height, height ≤ fork.height →
      next.heightsToHashes.lookup height = g.heightsToHashes.lookup height := by
  have atHash : fork.hash = hash := keyed.blockByHash retained
  rw [← atHash, MapBackedSnapshot.blockByHash] at retained
  rcases rewindTo_eq_ok rewound with ⟨atTip, rfl⟩ | ⟨newTip, elsewhere, _, found, rfl⟩
  · have tipHash : next.tip.hash = fork.hash := (congrArg BlockRef.hash atTip).symm
    rw [if_pos tipHash] at retained
    exact ⟨Option.some.inj retained, fun _ _ => rfl⟩
  · have same : newTip = fork := by
      split at retained
      · cases retained
        exact absurd rfl elsewhere
      · exact Option.some.inj (found.symm.trans retained)
    subst same
    refine ⟨rfl, fun height le => ?_⟩
    ext listed
    exact HashMap.lookup_retain_eq_some.trans (and_iff_left (decide_eq_true le))

/-- What a successful reorg did: it found where the branch joins the canonical chain, rewound
there and laid the branch down, so that only heights above the fork point were rewritten. -/
structure Reorganised (validator : Validator) (graph : MapBackedSnapshot) (requests : Nat)
    (block : BranchBlock) (next : MapBackedSnapshot) : Prop where
  keyed : next.Keyed
  tip_becomes : block.Becomes next.tip
  tip_listed : next.heightsToHashes.lookup next.tip.height = some next.tip.hash
  joins : ∃ fork, Joins validator graph requests block.parentHash fork ∧
    fork.height < next.tip.height ∧
    (∀ height, height ≤ fork.height →
      next.heightsToHashes.lookup height = graph.heightsToHashes.lookup height) ∧
    ∀ height, fork.height < height → height ≤ next.tip.height →
      ∃ laid : ChainHeadBlock, laid.height = height ∧ (laid = next.tip ∨ Foreign graph laid) ∧
        next.heightsToHashes.lookup height = some laid.hash ∧ (next.blockByHash laid.hash).isSome

/-- A successful reorg has walked down to the fork point, rewound to it and laid the branch down. -/
theorem TickEnv.handleReorg_steps {next : MapBackedSnapshot}
    (returned : (env.handleReorg graph block).Returns s next s') :
    ∃ fork branch s₁ rewound last, (env.descend graph (env.config.maxDepth + 1)
        block.parentHash).Returns
        { s with log := s.log ++ [.walked graph block.parentHash s.requests] } (fork, branch) s₁ ∧
      graph.rewindTo fork.reference = (.ok (), rewound) ∧
      (env.layDown rewound fork (branch.reverse ++ [block])).Returns s₁ (next, last) s' := by
  obtain ⟨_, _, read, walked⟩ := returns_bind.mp returned
  obtain ⟨rfl, rfl⟩ := returns_get.mp read
  obtain ⟨_, logged, recorded, walked⟩ := returns_bind.mp walked
  obtain rfl := returns_modify.mp recorded
  obtain ⟨⟨fork, branch⟩, s₁, descended, walked⟩ := returns_bind.mp walked
  obtain ⟨rewound, s₂, accepted, walked⟩ := returns_bind.mp walked
  obtain ⟨⟨final, last⟩, s₃, laidDown, same⟩ := returns_bind.mp walked
  obtain ⟨rfl, rfl⟩ := returns_pure.mp same
  obtain ⟨rewind, rfl⟩ := accept_returns accepted
  exact ⟨fork, branch, _, rewound, last, descended, rewind, laidDown⟩

theorem TickEnv.handleReorg_returns {env : TickEnv} {graph next : MapBackedSnapshot}
    {s s' : TickState} (keyed : graph.Keyed)
    (returned : (env.handleReorg graph block).Returns s next s') :
    s'.seam = s.seam ∧ s'.log = s.log ++ [.walked graph block.parentHash s.requests] ∧
      Reorganised env.validator graph s.requests block next := by
  obtain ⟨fork, branch, s₁, rewound, last, descended, rewind, laidDown⟩ := handleReorg_steps returned
  obtain ⟨requests, joins, offChain, _⟩ := descend_returns descended
  obtain ⟨requests', laid, become, lay⟩ := layDown_returns laidDown
  obtain ⟨seam, log⟩ := requests.trans requests'
  refine ⟨seam, log, ?_⟩
  -- Newest first, the laid blocks are the new tip and then the branch.
  rw [← reverse_cons, ← laid.reverse_reverse, forall₂_reverse_iff] at become
  obtain ⟨newest, older, becomes, becomeOlder, split⟩ :
      ∃ newest older, block.Becomes newest ∧ List.Forall₂ BranchBlock.Becomes branch older ∧
        laid.reverse = newest :: older := by
    cases split : laid.reverse with
    | nil =>
      rw [split] at become
      cases become
    | cons newest older =>
      rw [split] at become
      cases become with
      | cons becomes becomeOlder => exact ⟨newest, older, becomes, becomeOlder, rfl⟩
  have laid_eq : laid = older.reverse ++ [newest] := by
    rw [← laid.reverse_reverse, split, reverse_cons]
  have tip : next.tip = newest := lay.tip_eq_getLast laid_eq
  have chain : (newest :: older).IsChain fun newer older => newer.parentHash = older.hash := by
    rw [← split, isChain_reverse]
    exact lay.isChain
  have foreign := offChain.foreign becomes becomeOlder chain
  obtain ⟨⟨hash, retained⟩, _⟩ := joins.fork_canonical
  obtain ⟨rfl, kept⟩ := keyed.rewindTo_fork retained rewind
  refine ⟨lay.keyed (keyed.rewindTo rewind), tip ▸ becomes,
    lay.tip_listed (by simp [laid_eq]), _, joins, ?_, ?_, ?_⟩
  · rw [lt_def, lay.tip_height, laid_eq]
    simp
  · intro height le
    rw [lay.heightsToHashes_of_le le, kept height le]
  · intro height above le
    obtain ⟨found, member, atHeight, listed, held⟩ := lay.canonical_above above le
    refine ⟨found, atHeight, ?_, listed, held⟩
    rw [laid_eq] at member
    rcases mem_append.mp member with below | top
    · exact Or.inr (foreign found (mem_reverse.mp below))
    · exact Or.inl ((mem_singleton.mp top).trans tip.symm)

end Zaino.ChainHead
