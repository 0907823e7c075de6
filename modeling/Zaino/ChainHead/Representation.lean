import Mathlib.Data.Nat.Find
import Zaino.ChainHead.Graph

/-!
# The graph's representation invariant

The source's `ChainGraph` trait documents what every implementation upholds after every move.
`Representation` states it for the map-backed graph, relative to a `HashIdentity`: the fact that
a block's hash commits to its height and to its parent. The three moves keep it, so it holds of
every graph that a sequence of moves builds from an initial block.
-/

namespace Zaino.ChainHead

open Zaino Library MapBackedSnapshot Height Option AList Or

/-! ## What each move does to the lookups -/

namespace MapBackedSnapshot

variable {g : MapBackedSnapshot}

@[simp]
theorem replaceTip_tip (block : ChainHeadBlock) : (g.replaceTip block).tip = block := rfl

theorem replaceTip_others_lookup (block : ChainHeadBlock) (hash : BlockHash) :
    (g.replaceTip block).others.lookup hash = if hash = block.hash then none
      else if hash = g.tip.hash then some g.tip else g.others.lookup hash := by
  unfold replaceTip
  by_cases demoted : g.tip.hash = block.hash
  · by_cases replaced : hash = block.hash
    · subst replaced
      simp [demoted, lookup_erase]
    · simp [demoted, replaced, lookup_erase_ne]
  · by_cases old : hash = g.tip.hash
    · subst old
      simp [demoted, lookup_insert]
    · by_cases replaced : hash = block.hash
      · subst replaced
        simp [demoted, old, lookup_insert_ne, lookup_erase]
      · simp [demoted, old, replaced, lookup_insert_ne, lookup_erase_ne]

/-- A replaced tip changes what is retained only at its own hash. -/
@[simp]
theorem blockByHash_replaceTip (block : ChainHeadBlock) (hash : BlockHash) :
    (g.replaceTip block).blockByHash hash =
      if block.hash = hash then some block else g.blockByHash hash := by
  unfold blockByHash
  rw [replaceTip_tip, replaceTip_others_lookup]
  by_cases same : block.hash = hash
  · simp [same]
  · by_cases old : g.tip.hash = hash <;> simp [same, old, Ne.symm]

variable {block : ChainHeadBlock} {next : MapBackedSnapshot}

theorem extend_eq_ok (extended : g.extend block = (.ok (), next)) :
    block.parentHash = g.tip.hash ∧ block.height.value = g.tip.height.value + 1 ∧ next = { g with
        heightsToHashes := g.heightsToHashes.insert block.height block.hash }.replaceTip block := by
  unfold extend at extended
  split at extended
  · next child =>
    cases extended
    exact ⟨child.1, checkedAdd_eq_some.mp child.2, rfl⟩
  · cases extended

theorem extend_eq_error {refusal : NotChildOfTip}
    (refused : g.extend block = (.error refusal, next)) : next = g := by
  unfold extend at refused
  split at refused <;> cases refused
  rfl

/-- A rewind either finds its target to be the tip or installs a canonical retained block. -/
theorem rewindTo_eq_ok {block : BlockRef} (rewound : g.rewindTo block = (.ok (), next)) :
    (block = g.tip.reference ∧ next = g) ∨
      ∃ newTip, block ≠ g.tip.reference ∧ g.heightsToHashes.lookup block.height = some block.hash ∧
        g.others.lookup block.hash = some newTip ∧ next = { g with
          heightsToHashes := g.heightsToHashes.retain fun height _ => height ≤ block.height
          }.replaceTip newTip := by
  unfold rewindTo at rewound
  split at rewound
  · next atTip =>
    cases rewound
    exact inl ⟨atTip, rfl⟩
  · next elsewhere =>
    split at rewound
    · next canonical =>
      split at rewound
      · cases rewound
      · next newTip found =>
        cases rewound
        exact inr ⟨newTip, elsewhere, of_decide_eq_true canonical, found, rfl⟩
    · cases rewound

theorem rewindTo_eq_error {block : BlockRef} {refusal : NotOnBestChain}
    (refused : g.rewindTo block = (.error refusal, next)) : next = g := by
  unfold rewindTo at refused
  split at refused
  · cases refused
  · split at refused
    · split at refused <;> cases refused
      rfl
    · cases refused
      rfl

@[simp]
theorem removeFinalisedBlocks_tip (floor : Height) : (g.removeFinalisedBlocks floor).tip = g.tip :=
  rfl

theorem heightsToHashes_removeFinalisedBlocks {floor height : Height} {hash : BlockHash} :
    (g.removeFinalisedBlocks floor).heightsToHashes.lookup height = some hash ↔
      g.heightsToHashes.lookup height = some hash ∧ (floor ≤ height ∨ hash = g.tip.hash) := by
  simp [removeFinalisedBlocks]

theorem blockByHash_removeFinalisedBlocks {floor : Height} {hash : BlockHash} :
    (g.removeFinalisedBlocks floor).blockByHash hash = some block ↔
      g.blockByHash hash = some block ∧ (floor ≤ block.height ∨ g.tip.hash = hash) := by
  unfold blockByHash
  by_cases isTip : g.tip.hash = hash <;> simp [isTip, removeFinalisedBlocks]

end MapBackedSnapshot

/-! ## The invariant -/

/-- What a block hash commits to. -/
structure HashIdentity where
  height : BlockHash → Height
  parent : BlockHash → BlockHash

/-- The block carries the height and the parent that its hash commits to. -/
def HashIdentity.Describes (identity : HashIdentity) (block : ChainHeadBlock) : Prop :=
  block.height = identity.height block.hash ∧ block.parentHash = identity.parent block.hash

/-- The contract of a chain-head graph. -/
structure Representation (identity : HashIdentity) (g : MapBackedSnapshot) : Prop where
  /-- The tip is never also present among the others. -/
  tip_apart : g.others.lookup g.tip.hash = none
  /-- Retained blocks are found under their own hash. -/
  keyed : ∀ {hash block}, g.blockByHash hash = some block → block.hash = hash
  described : ∀ {hash block}, g.blockByHash hash = some block → identity.Describes block
  tip_listed : g.heightsToHashes.lookup g.tip.height = some g.tip.hash
  /-- Every canonical entry is a retained block of that height. -/
  listed : ∀ {height hash}, g.heightsToHashes.lookup height = some hash →
    ∃ block, g.blockByHash hash = some block ∧ block.height = height
  below_tip : ∀ {height hash}, g.heightsToHashes.lookup height = some hash → height ≤ g.tip.height
  gapless : ∀ {height hash} {above : Height}, g.heightsToHashes.lookup height = some hash →
    height ≤ above → above ≤ g.tip.height → ∃ hash', g.heightsToHashes.lookup above = some hash'
  linked : ∀ {height above : Height} {hash hash' block}, above.value = height.value + 1 →
    g.heightsToHashes.lookup height = some hash → g.heightsToHashes.lookup above = some hash' →
    g.blockByHash hash' = some block → block.parentHash = hash

namespace Representation

variable {identity : HashIdentity} {g : MapBackedSnapshot}

variable {block : ChainHeadBlock} {height : Height} {next : MapBackedSnapshot}

theorem fromInitialBlock (described : identity.Describes block) :
    Representation identity (.fromInitialBlock block) := by
  have retained : ∀ {hash found},
      (MapBackedSnapshot.fromInitialBlock block).blockByHash hash = some found →
        block.hash = hash ∧ found = block := by
    intro hash found lookup
    unfold MapBackedSnapshot.blockByHash at lookup
    split at lookup
    · next atHash =>
      cases lookup
      exact ⟨atHash, rfl⟩
    · cases lookup
  refine ⟨rfl, ?_, ?_, lookup_fromInitialBlock.mpr ⟨rfl, rfl⟩, ?_, ?_, ?_, ?_⟩
  · intro hash found lookup
    obtain ⟨atHash, rfl⟩ := retained lookup
    exact atHash
  · intro hash found lookup
    obtain ⟨_, rfl⟩ := retained lookup
    exact described
  · intro height hash found
    obtain ⟨rfl, rfl⟩ := lookup_fromInitialBlock.mp found
    exact ⟨block, by simp [MapBackedSnapshot.blockByHash, MapBackedSnapshot.fromInitialBlock], rfl⟩
  · intro height hash found
    obtain ⟨rfl, _⟩ := lookup_fromInitialBlock.mp found
    exact Nat.le_refl _
  · intro height hash above found le le'
    obtain ⟨rfl, _⟩ := lookup_fromInitialBlock.mp found
    have same : above = block.height := ext (Nat.le_antisymm le' le)
    exact ⟨block.hash, lookup_fromInitialBlock.mpr ⟨same, rfl⟩⟩
  · intro height above hash hash' found succ lower upper _
    rw [(lookup_fromInitialBlock.mp lower).1,
      (lookup_fromInitialBlock.mp upper).1] at succ
    omega

/-- A canonical entry and the tip's entry name different blocks below the tip. -/
theorem hash_ne_of_height_ne (rep : Representation identity g) {height' : Height}
    {hash hash' : BlockHash} (lower : g.heightsToHashes.lookup height = some hash)
    (upper : g.heightsToHashes.lookup height' = some hash') (ne : height ≠ height') :
    hash ≠ hash' := by
  rintro rfl
  obtain ⟨block, found, atHeight⟩ := rep.listed lower
  obtain ⟨block', found', atHeight'⟩ := rep.listed upper
  rw [found] at found'
  cases found'
  exact ne (atHeight.symm.trans atHeight')

theorem extend (rep : Representation identity g) (described : identity.Describes block)
    (extended : g.extend block = (.ok (), next)) : Representation identity next := by
  obtain ⟨child, above, rfl⟩ := extend_eq_ok extended
  -- A canonical block cannot share the new tip's hash: the hash fixes the height.
  have fresh : ∀ {height}, g.heightsToHashes.lookup height ≠ some block.hash := by
    intro height found
    obtain ⟨old, retained, atHeight⟩ := rep.listed found
    have oldHeight : old.height = block.height := by
      rw [(rep.described retained).1, described.1, rep.keyed retained]
    have le := le_def.mp (rep.below_tip found)
    rw [← atHeight, oldHeight] at le
    omega
  have entries : ∀ {height hash},
      (g.heightsToHashes.insert block.height block.hash).lookup height = some hash →
        (height = block.height ∧ hash = block.hash) ∨
          (height ≤ g.tip.height ∧ hash ≠ block.hash ∧
            g.heightsToHashes.lookup height = some hash) := by
    intro height hash found
    rcases HashMap.lookup_insert_eq_some.mp found with ⟨atHeight, atHash⟩ | ⟨_, old⟩
    · exact inl ⟨atHeight, atHash.symm⟩
    · exact inr ⟨rep.below_tip old, fun same => fresh (same ▸ old), old⟩
  have retained : ∀ {hash found},
      (if block.hash = hash then some block else g.blockByHash hash) = some found →
        (block.hash = hash ∧ found = block) ∨ (block.hash ≠ hash ∧ g.blockByHash hash = some found) := by
    intro hash found lookup
    split at lookup
    · next atHash => exact inl ⟨atHash, (some.inj lookup).symm⟩
    · next other => exact inr ⟨other, lookup⟩
  refine ⟨?_, ?_, ?_, ?_, ?_, ?_, ?_, ?_⟩
  · simp [replaceTip_others_lookup]
  · intro hash found lookup
    rw [blockByHash_replaceTip] at lookup
    rcases retained lookup with ⟨atHash, rfl⟩ | ⟨_, old⟩
    · exact atHash
    · exact rep.keyed old
  · intro hash found lookup
    rw [blockByHash_replaceTip] at lookup
    rcases retained lookup with ⟨_, rfl⟩ | ⟨_, old⟩
    · exact described
    · exact rep.described old
  · exact lookup_insert _
  · intro height hash found
    rcases entries found with ⟨rfl, rfl⟩ | ⟨_, ne, old⟩
    · exact ⟨block, by simp, rfl⟩
    · obtain ⟨listed, kept, atHeight⟩ := rep.listed old
      refine ⟨listed, ?_, atHeight⟩
      rw [blockByHash_replaceTip, if_neg ne.symm]
      exact kept
  · intro height hash found
    rcases entries found with ⟨rfl, _⟩ | ⟨le, _, _⟩
    · exact Nat.le_refl _
    · exact Nat.le_of_lt (lt_of_le_of_lt le (by rw [replaceTip_tip]; omega))
  · intro height hash upper found le le'
    by_cases top : upper = block.height
    · exact ⟨block.hash, top ▸ lookup_insert _⟩
    · have lower : upper ≤ g.tip.height := by
        have ne : upper.value ≠ block.height.value := fun same => top (ext same)
        have le : upper.value ≤ block.height.value := le'
        exact le_def.mpr (by omega)
      rcases entries found with ⟨rfl, _⟩ | ⟨_, _, old⟩
      · have := le_def.mp (lower)
        have := le_def.mp le
        omega
      · obtain ⟨hash', listed⟩ := rep.gapless old le lower
        exact ⟨hash', HashMap.lookup_insert_eq_some.mpr (inr ⟨top, listed⟩)⟩
  · intro height upper hash hash' found succ lower higher lookup
    rw [blockByHash_replaceTip] at lookup
    rcases entries higher with ⟨rfl, rfl⟩ | ⟨le, ne, old⟩
    · rw [if_pos rfl] at lookup
      cases lookup
      have atTip : height = g.tip.height := ext (by omega)
      rcases entries lower with ⟨rfl, _⟩ | ⟨_, _, old⟩
      · omega
      · rw [atTip, rep.tip_listed] at old
        exact child.trans (some.inj old)
    · rw [if_neg ne.symm] at lookup
      rcases entries lower with ⟨rfl, _⟩ | ⟨_, _, old'⟩
      · have := le_def.mp le
        omega
      · exact rep.linked succ old' old lookup

theorem rewindTo {block : BlockRef} (rep : Representation identity g)
    (rewound : g.rewindTo block = (.ok (), next)) : Representation identity next := by
  rcases rewindTo_eq_ok rewound with ⟨_, rfl⟩ | ⟨newTip, _, listed, found, rfl⟩
  · exact rep
  -- The new tip is the block the height index names, and retention is unchanged.
  have notTip : g.tip.hash ≠ block.hash := by
    intro same
    rw [← same, rep.tip_apart] at found
    cases found
  have view : g.blockByHash block.hash = some newTip := by
    rw [MapBackedSnapshot.blockByHash, if_neg notTip]
    exact found
  have tipHash : newTip.hash = block.hash := rep.keyed view
  have tipHeight : newTip.height = block.height := by
    obtain ⟨named, retained, atHeight⟩ := rep.listed listed
    rw [view] at retained
    cases retained
    exact atHeight
  have same : ∀ hash, (if newTip.hash = hash then some newTip else g.blockByHash hash) =
      g.blockByHash hash := by
    intro hash
    split
    · next atHash => rw [← atHash, tipHash, view]
    · rfl
  have entries : ∀ {height hash},
      (g.heightsToHashes.retain fun height _ => height ≤ block.height).lookup height = some hash ↔
        g.heightsToHashes.lookup height = some hash ∧ height ≤ block.height := by
    intro height hash
    simp
  have le_tip : block.height ≤ g.tip.height := rep.below_tip listed
  refine ⟨?_, ?_, ?_, ?_, ?_, ?_, ?_, ?_⟩
  · simp [replaceTip_others_lookup]
  · intro hash found lookup
    rw [blockByHash_replaceTip] at lookup
    exact rep.keyed ((same hash).symm.trans lookup)
  · intro hash found lookup
    rw [blockByHash_replaceTip] at lookup
    exact rep.described ((same hash).symm.trans lookup)
  · refine entries.mpr ⟨?_, ?_⟩
    · rw [replaceTip_tip, tipHeight, tipHash]
      exact listed
    · rw [replaceTip_tip, tipHeight]
      exact Nat.le_refl _
  · intro height hash found
    obtain ⟨named, retained, atHeight⟩ := rep.listed (entries.mp found).1
    refine ⟨named, ?_, atHeight⟩
    rw [blockByHash_replaceTip]
    exact (same hash).trans retained
  · intro height hash found
    rw [replaceTip_tip, tipHeight]
    exact (entries.mp found).2
  · intro height hash above found le le'
    rw [replaceTip_tip, tipHeight] at le'
    obtain ⟨hash', listed'⟩ := rep.gapless (entries.mp found).1 le
      (Nat.le_trans (le_def.mp le') (le_def.mp le_tip))
    exact ⟨hash', entries.mpr ⟨listed', le'⟩⟩
  · intro height above hash hash' found succ lower upper lookup
    rw [blockByHash_replaceTip] at lookup
    exact rep.linked succ (entries.mp lower).1 (entries.mp upper).1
      ((same hash').symm.trans lookup)

theorem removeFinalisedBlocks (rep : Representation identity g) (floor : Height) :
    Representation identity (g.removeFinalisedBlocks floor) := by
  -- An entry kept on account of the tip's hash is the tip's own.
  have kept : ∀ {height hash},
      (g.removeFinalisedBlocks floor).heightsToHashes.lookup height = some hash →
        g.heightsToHashes.lookup height = some hash ∧ (floor ≤ height ∨ height = g.tip.height) := by
    intro height hash found
    obtain ⟨listed, above | atTip⟩ := heightsToHashes_removeFinalisedBlocks.mp found
    · exact ⟨listed, inl above⟩
    · by_cases top : height = g.tip.height
      · exact ⟨listed, inr top⟩
      · exact absurd atTip (rep.hash_ne_of_height_ne listed rep.tip_listed top)
  refine ⟨?_, ?_, ?_, ?_, ?_, ?_, ?_, ?_⟩
  · refine eq_none_iff_forall_ne_some.mpr fun found lookup => ?_
    have := (HashMap.lookup_retain_eq_some.mp lookup).1
    rw [removeFinalisedBlocks_tip, rep.tip_apart] at this
    cases this
  · intro hash found lookup
    exact rep.keyed (blockByHash_removeFinalisedBlocks.mp lookup).1
  · intro hash found lookup
    exact rep.described (blockByHash_removeFinalisedBlocks.mp lookup).1
  · exact heightsToHashes_removeFinalisedBlocks.mpr
      ⟨rep.tip_listed, inr rfl⟩
  · intro height hash found
    obtain ⟨listed, above | atTip⟩ := heightsToHashes_removeFinalisedBlocks.mp found
    · obtain ⟨block, retained, atHeight⟩ := rep.listed listed
      exact ⟨block, blockByHash_removeFinalisedBlocks.mpr
        ⟨retained, inl (atHeight ▸ above)⟩, atHeight⟩
    · obtain ⟨block, retained, atHeight⟩ := rep.listed listed
      exact ⟨block, blockByHash_removeFinalisedBlocks.mpr
        ⟨retained, inr atTip.symm⟩, atHeight⟩
  · intro height hash found
    exact rep.below_tip (kept found).1
  · intro height hash above found le le'
    rcases kept found with ⟨listed, inWindow | atTip⟩
    · obtain ⟨hash', listed'⟩ := rep.gapless listed le le'
      exact ⟨hash', heightsToHashes_removeFinalisedBlocks.mpr
        ⟨listed', inl (Nat.le_trans inWindow le)⟩⟩
    · have top : above = g.tip.height := ext (Nat.le_antisymm le' (atTip ▸ le))
      exact ⟨g.tip.hash, heightsToHashes_removeFinalisedBlocks.mpr
        ⟨top ▸ rep.tip_listed, inr rfl⟩⟩
  · intro height above hash hash' found succ lower upper lookup
    exact rep.linked succ (kept lower).1 (kept upper).1
      (blockByHash_removeFinalisedBlocks.mp lookup).1

theorem blockByHash_tip : g.blockByHash g.tip.hash = some g.tip :=
  if_pos rfl

theorem blockByHash_of_mem (rep : Representation identity g)
    (member : block ∈ g.blocks) : g.blockByHash block.hash = some block := by
  rcases List.mem_cons.mp member with rfl | other
  · exact blockByHash_tip
  · obtain ⟨hash, lookup⟩ := HashMap.mem_values.mp other
    have notTip : g.tip.hash ≠ hash := by
      rintro rfl
      rw [rep.tip_apart] at lookup
      cases lookup
    have retained : g.blockByHash hash = some block := by
      rw [MapBackedSnapshot.blockByHash, if_neg notTip]
      exact lookup
    exact rep.keyed retained ▸ retained

/-- Where canonical entries are retained, the canonical heights are those with a block. -/
theorem exists_bestBlockByHeight {p : ChainHeadBlock → Prop}
    (listed : ∀ {hash}, g.heightsToHashes.lookup height = some hash →
      ∃ block, g.blockByHash hash = some block ∧ p block) :
    (∃ block, g.bestBlockByHeight height = some block) ↔
      ∃ hash, g.heightsToHashes.lookup height = some hash := by
  constructor
  · rintro ⟨block, atHeight⟩
    obtain ⟨hash, found, _⟩ := bind_eq_some_iff.mp atHeight
    exact ⟨hash, found⟩
  · rintro ⟨hash, found⟩
    obtain ⟨block, retained, _⟩ := listed found
    exact ⟨block, bind_eq_some_iff.mpr ⟨hash, found, retained⟩⟩

/-- The canonical heights are exactly an interval that ends at the tip. -/
theorem exists_lowest (rep : Representation identity g) :
    ∃ lowest : Height, lowest ≤ g.tip.height ∧ ∀ height : Height,
      (∃ hash, g.heightsToHashes.lookup height = some hash) ↔
        lowest ≤ height ∧ height ≤ g.tip.height := by
  classical
  have inhabited : ∃ n, ∃ height : Height, height.value = n ∧
      ∃ hash, g.heightsToHashes.lookup height = some hash :=
    ⟨_, g.tip.height, rfl, g.tip.hash, rep.tip_listed⟩
  obtain ⟨lowest, atLeast, hash, listed⟩ := Nat.find_spec inhabited
  refine ⟨lowest, rep.below_tip listed, fun height => ⟨?_, ?_⟩⟩
  · rintro ⟨hash', listed'⟩
    refine ⟨?_, rep.below_tip listed'⟩
    rw [le_def, atLeast]
    exact Nat.find_min' inhabited ⟨height, rfl, hash', listed'⟩
  · rintro ⟨ge, le⟩
    exact rep.gapless listed ge le

end Representation

/-! ## The tip's ancestors -/

/-- The block `distance` parent links below the tip, through retained blocks. -/
def MapBackedSnapshot.ancestor (g : MapBackedSnapshot) : Nat → Option ChainHeadBlock
  | 0 => some g.tip
  | distance + 1 => (g.ancestor distance).bind fun block => g.blockByHash block.parentHash

variable {identity : HashIdentity} {g : MapBackedSnapshot}

/-- A canonical entry names the tip's ancestor at that height. -/
theorem Representation.ancestor_of_listed (rep : Representation identity g) {distance : Nat} :
    ∀ {height : Height} {hash : BlockHash}, height.value + distance = g.tip.height.value →
      g.heightsToHashes.lookup height = some hash →
        ∃ block, g.ancestor distance = some block ∧ g.blockByHash hash = some block ∧
          block.height = height := by
  induction distance with
  | zero =>
    intro height hash atTip listed
    obtain rfl : height = g.tip.height := ext (by omega)
    rw [rep.tip_listed] at listed
    exact ⟨g.tip, rfl, some.inj listed ▸ Representation.blockByHash_tip, rfl⟩
  | succ distance ih =>
    intro height hash below listed
    obtain ⟨above, succ⟩ : ∃ above : Height, above.value = height.value + 1 :=
      ⟨⟨height.value + 1, Nat.le_trans (by omega) g.tip.height.bounded⟩, rfl⟩
    have ge : height ≤ above := le_def.mpr (by omega)
    have le : above ≤ g.tip.height := le_def.mpr (by omega)
    obtain ⟨hash', listed'⟩ := rep.gapless listed ge le
    obtain ⟨child, reached, retainedChild, _⟩ := ih (by omega) listed'
    obtain ⟨block, retained, atHeight⟩ := rep.listed listed
    have parent : child.parentHash = hash := rep.linked succ listed listed' retainedChild
    refine ⟨block, ?_, retained, atHeight⟩
    rw [ancestor, reached, bind_some, parent]
    exact retained

/-! ## Sequences of moves -/

/-- A move of the chain-head writer. -/
inductive Move where
  | extend (block : ChainHeadBlock)
  | rewindTo (block : BlockRef)
  | removeFinalisedBlocks (floor : Height)

/-- Why a move was refused. -/
inductive Refusal where
  | notChildOfTip (refusal : NotChildOfTip)
  | notOnBestChain (refusal : NotOnBestChain)

/-- The outcome of a move and the graph it leaves behind. -/
def Move.apply (g : MapBackedSnapshot) : Move → Except Refusal Unit × MapBackedSnapshot
  | .extend block => ((g.extend block).1.mapError .notChildOfTip, (g.extend block).2)
  | .rewindTo block => ((g.rewindTo block).1.mapError .notOnBestChain, (g.rewindTo block).2)
  | .removeFinalisedBlocks floor => (.ok (), g.removeFinalisedBlocks floor)

/-- The graph after a sequence of moves, refused ones included. -/
def MapBackedSnapshot.moved (g : MapBackedSnapshot) (moves : List Move) : MapBackedSnapshot :=
  moves.foldl (fun graph move => (move.apply graph).2) g

/-- The block a move brings in, if any, carries what its hash commits to. -/
def Move.Described (identity : HashIdentity) : Move → Prop
  | .extend block => identity.Describes block
  | .rewindTo _ => True
  | .removeFinalisedBlocks _ => True

variable {move : Move}

theorem Move.eq_of_refused {next : MapBackedSnapshot} {refusal : Refusal}
    (refused : move.apply g = (.error refusal, next)) : next = g := by
  cases move with
  | extend block =>
    simp only [Move.apply, Prod.mk.injEq] at refused
    cases outcome : g.extend block with
    | mk result after =>
      rw [outcome] at refused
      cases result with
      | ok => cases refused.1
      | error => exact refused.2 ▸ extend_eq_error outcome
  | rewindTo block =>
    simp only [Move.apply, Prod.mk.injEq] at refused
    cases outcome : g.rewindTo block with
    | mk result after =>
      rw [outcome] at refused
      cases result with
      | ok => cases refused.1
      | error => exact refused.2 ▸ rewindTo_eq_error outcome
  | removeFinalisedBlocks floor => cases refused

/-- One move keeps the contract. -/
theorem Move.apply_representation (rep : Representation identity g)
    (described : move.Described identity) : Representation identity (move.apply g).2 := by
  cases move with
  | extend block =>
    simp only [Move.apply]
    cases outcome : g.extend block with
    | mk result after =>
      cases result with
      | ok => exact rep.extend described outcome
      | error => exact extend_eq_error outcome ▸ rep
  | rewindTo block =>
    simp only [Move.apply]
    cases outcome : g.rewindTo block with
    | mk result after =>
      cases result with
      | ok => exact rep.rewindTo outcome
      | error => exact rewindTo_eq_error outcome ▸ rep
  | removeFinalisedBlocks floor => exact rep.removeFinalisedBlocks floor

/-- Every sequence of moves keeps the contract. -/
theorem Representation.moved {moves : List Move} (rep : Representation identity g)
    (described : ∀ move ∈ moves, move.Described identity) :
    Representation identity (g.moved moves) := by
  induction moves generalizing g with
  | nil => exact rep
  | cons move rest ih =>
    exact ih (Move.apply_representation rep (described move (by simp)))
      fun move' member => described move' (List.mem_cons_of_mem _ member)

/-- The contract of the source's `ChainGraph` trait, for every sequence of moves from an initial
block: the tip is retained and canonical, the canonical heights form an interval ending at the
tip, canonical blocks are linked by their parent hashes, a retained block that the height index
names is the tip's ancestor at its height, and a refused move leaves the graph as it was. -/
theorem moved_contract (identity : HashIdentity) (initial : ChainHeadBlock) (moves : List Move)
    (initialDescribed : identity.Describes initial)
    (described : ∀ move ∈ moves, move.Described identity) :
    let g := (MapBackedSnapshot.fromInitialBlock initial).moved moves
    (g.blockByHash g.tip.hash = some g.tip ∧ g.isOnBestChain g.tip.reference = true) ∧
    (∃ lowest : Height, lowest ≤ g.tip.height ∧ ∀ height : Height,
      (∃ block, g.bestBlockByHeight height = some block) ↔
        lowest ≤ height ∧ height ≤ g.tip.height) ∧
    (∀ (height above : Height) (lower upper : ChainHeadBlock),
      above.value = height.value + 1 → g.bestBlockByHeight height = some lower →
        g.bestBlockByHeight above = some upper → upper.parentHash = lower.hash) ∧
    (∀ block ∈ g.blocks, g.isOnBestChain block.reference = true →
      block.height ≤ g.tip.height ∧
        g.ancestor (g.tip.height.value - block.height.value) = some block) ∧
    (∀ (move : Move) (refusal : Refusal) (next : MapBackedSnapshot),
      move.apply g = (.error refusal, next) → next = g) := by
  intro g
  have rep : Representation identity g :=
    (Representation.fromInitialBlock initialDescribed).moved described
  refine ⟨⟨Representation.blockByHash_tip, decide_eq_true rep.tip_listed⟩, ?_, ?_, ?_,
    fun move refusal next refused => Move.eq_of_refused refused⟩
  · obtain ⟨lowest, le, interval⟩ := rep.exists_lowest
    refine ⟨lowest, le, fun height => ?_⟩
    rw [← interval height]
    exact Representation.exists_bestBlockByHeight rep.listed
  · intro height above lower upper succ atHeight atAbove
    obtain ⟨lowerHash, listed, retained⟩ := Option.bind_eq_some_iff.mp atHeight
    obtain ⟨upperHash, listed', retained'⟩ := Option.bind_eq_some_iff.mp atAbove
    rw [rep.keyed retained]
    exact rep.linked succ listed listed' retained'
  · intro block member onBestChain
    have listed : g.heightsToHashes.lookup block.height = some block.hash :=
      of_decide_eq_true onBestChain
    have le := rep.below_tip listed
    obtain ⟨named, reached, retained, _⟩ :=
      rep.ancestor_of_listed (Nat.add_sub_cancel' (Height.le_def.mp le)) listed
    rw [rep.blockByHash_of_mem member] at retained
    cases retained
    exact ⟨le, reached⟩

/-- Two siblings above one block: the second is laid down after a rewind, and a trim above the tip
then leaves the tip alone. -/
theorem moved_contract_sibling : let first := sampleBlock 10 1 5 1
    let left := sampleBlock 12 10 6 2
    let right := sampleBlock 13 10 6 2
    let g := (MapBackedSnapshot.fromInitialBlock first).moved
      [.extend left, .rewindTo first.reference, .extend right, .rewindTo left.reference,
        .removeFinalisedBlocks ⟨7, by decide⟩]
    g.tip = right ∧ ∃ lowest : Height, lowest ≤ g.tip.height ∧ ∀ height : Height,
      (∃ block, g.bestBlockByHeight height = some block) ↔
        lowest ≤ height ∧ height ≤ g.tip.height := by
  intro first left right g
  refine ⟨by decide, ?_⟩
  refine (moved_contract
    ⟨fun hash => ⟨min (hash.toNat / 2) maxHeight, Nat.min_le_right _ _⟩,
      fun hash => if hash = 10 then 1 else 10⟩ first _ ⟨by decide, by decide⟩ ?_).2.1
  intro move member
  simp only [List.mem_cons, List.not_mem_nil, or_false] at member
  rcases member with rfl | rfl | rfl | rfl | rfl
  · exact ⟨by decide, by decide⟩
  · trivial
  · exact ⟨by decide, by decide⟩
  · trivial
  · trivial

end Zaino.ChainHead
